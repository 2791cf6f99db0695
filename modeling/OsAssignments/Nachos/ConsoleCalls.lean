import OsAssignments.Nachos.ConsoleLocks

/-!
# The synchronous console: what its calls do

What the device and the semaphore of a half look like follows from where the holder of its
lock stands (`ReadPhase`, `WritePhase`); with that every step of a thread succeeds.

- `reads_exact` — the characters that were typed come back, each once and in order.
- `writes_exact` — the display shows the characters of the calls, in order.
- `nothing_stuck` — no `ASSERT` fails, and when nothing can go on, nobody waits but for
  the keyboard.
-/

namespace OsAssignments.SyncConsole

open PartialMachine

/-! ## §1  Phases -/

/-- The character that the thread is about to return. -/
def Thread.inHand (t : Thread) : List Byte :=
  match t.pc with
  | .took temp => [temp]
  | _ => []

/-- The character that the thread has given to the display. -/
def Thread.shown (t : Thread) : List Byte :=
  match t.pc with
  | .put car | .waiting (.ecrirechar car) | .passed (.ecrirechar car) => [car]
  | _ => []

/-- The semaphore counts the character that is there. -/
def ReadRest (sem : Semaphore) (incoming : Byte) : Prop :=
  sem = ⟨if incoming = EOF then 0 else 1, []⟩

/-- How the reading half stands while `k` holds its lock. -/
def ReadPhase (sem : Semaphore) (incoming : Byte) (k : ℕ) (t : Thread) : Prop :=
  match t.pc with
  | .acquiring .lirechar | .acquired .lirechar | .took _ =>
      t.blocked = false ∧ ReadRest sem incoming
  | .waiting .lirechar =>
      t.blocked = true ∧ sem = ⟨0, [k]⟩ ∧ incoming = EOF ∨
        t.blocked = false ∧ sem = ⟨1, []⟩ ∧ incoming ≠ EOF
  | .passed .lirechar => t.blocked = false ∧ sem = ⟨0, []⟩ ∧ incoming ≠ EOF
  | _ => False

/-- Nothing is being shown. -/
def WriteRest (sem : Semaphore) (putBusy : Bool) (writeInts : ℕ) : Prop :=
  sem = ⟨0, []⟩ ∧ putBusy = false ∧ writeInts = 0

/-- How the writing half stands while `k` holds its lock. -/
def WritePhase (sem : Semaphore) (putBusy : Bool) (writeInts : ℕ) (k : ℕ) (t : Thread) : Prop :=
  match t.pc with
  | .acquiring (.ecrirechar _) | .acquired (.ecrirechar _) | .passed (.ecrirechar _) =>
      t.blocked = false ∧ WriteRest sem putBusy writeInts
  | .put _ =>
      t.blocked = false ∧ (sem = ⟨0, []⟩ ∧ putBusy = true ∧ writeInts = 1 ∨
        sem = ⟨1, []⟩ ∧ putBusy = false ∧ writeInts = 0)
  | .waiting (.ecrirechar _) =>
      t.blocked = true ∧ sem = ⟨0, [k]⟩ ∧ putBusy = true ∧ writeInts = 1 ∨
        t.blocked = false ∧ sem = ⟨1, []⟩ ∧ putBusy = false ∧ writeInts = 0
  | _ => False

namespace Kernel

/-- What has been typed has been returned, is in the hand of the holder or in the device,
or is still to be read. -/
def Chars (s : Kernel) (hand : List Byte) : Prop :=
  s.typed = s.returned.map Prod.snd ++ hand ++
    (if s.console.incoming = EOF then [] else [s.console.incoming]) ++ s.keyboard

structure ReadInv (s : Kernel) : Prop where
  held : ∀ k, (s.lock .read).state = some k →
    ReadPhase (s.sem .read) s.console.incoming k (s.threads k) ∧ s.Chars (s.threads k).inHand
  free : (s.lock .read).state = none →
    ReadRest (s.sem .read) s.console.incoming ∧ s.Chars []

structure WriteInv (s : Kernel) : Prop where
  held : ∀ k, (s.lock .write).state = some k →
    WritePhase (s.sem .write) s.console.putBusy s.writeInts k (s.threads k) ∧
      s.display = s.written.map Prod.snd ++ (s.threads k).shown
  free : (s.lock .write).state = none →
    WriteRest (s.sem .write) s.console.putBusy s.writeInts ∧
      s.display = s.written.map Prod.snd
  count : s.numConsoleCharsWritten + s.writeInts = s.display.length

/-- **The invariant.** A character that is `EOF` is no character to the device; without
one the reading half is as its holder says. -/
structure Inv (s : Kernel) : Prop where
  locks : LocksInv s
  read : EOF ∉ s.typed → ReadInv s
  write : WriteInv s

variable {s s' : Kernel} {k j : ℕ} {t : Thread} {call : Call} {side other : Side}

/-! ## §2  The two halves -/

/-- The holder of a lock is in a call of that half. -/
theorem LocksInv.holder_side (h : LocksInv s) (hk : (s.lock side).state = some k) :
    (s.threads k).pc.call.map Call.side = some side := by
  apply side_of_role side
  rw [((h.lock side).inside k).mpr hk]
  exact LockRole.noConfusion

/-- Nothing that the reading half is about has changed. -/
theorem ReadInv.frame (h : ReadInv s) (hstate : (s'.lock .read).state = (s.lock .read).state)
    (hsem : s'.sem .read = s.sem .read)
    (hdevice : s'.console.incoming = s.console.incoming ∧ s'.keyboard = s.keyboard)
    (hghost : s'.typed = s.typed ∧ s'.returned = s.returned)
    (hthreads : ∀ k, (s.lock .read).state = some k → s'.threads k = s.threads k) :
    ReadInv s' := by
  have hchars (hand : List Byte) (hc : s.Chars hand) : s'.Chars hand := by
    unfold Chars at *
    rw [hghost.1, hghost.2, hdevice.1, hdevice.2]
    exact hc
  constructor
  · intro k hk
    rw [hstate] at hk
    rw [hsem, hdevice.1, hthreads k hk]
    exact ⟨(h.held k hk).1, hchars _ (h.held k hk).2⟩
  · intro hfree
    rw [hstate] at hfree
    rw [hsem, hdevice.1]
    exact ⟨(h.free hfree).1, hchars _ (h.free hfree).2⟩

/-- The holder has moved on. -/
theorem ReadInv.of_held (hk : (s.lock .read).state = some k)
    (hphase : ReadPhase (s.sem .read) s.console.incoming k (s.threads k))
    (hchars : s.Chars (s.threads k).inHand) : ReadInv s := by
  constructor
  · intro j hj
    rw [hk] at hj
    cases hj
    exact ⟨hphase, hchars⟩
  · intro hfree
    rw [hk] at hfree
    cases hfree

theorem WriteInv.frame (h : WriteInv s) (hstate : (s'.lock .write).state = (s.lock .write).state)
    (hsem : s'.sem .write = s.sem .write)
    (hdevice : s'.console.putBusy = s.console.putBusy ∧ s'.writeInts = s.writeInts ∧
      s'.display = s.display ∧ s'.numConsoleCharsWritten = s.numConsoleCharsWritten)
    (hghost : s'.written = s.written)
    (hthreads : ∀ k, (s.lock .write).state = some k → s'.threads k = s.threads k) :
    WriteInv s' := by
  obtain ⟨hbusy, hints, hdisplay, hcount⟩ := hdevice
  constructor
  · intro k hk
    rw [hstate] at hk
    rw [hsem, hbusy, hints, hdisplay, hghost, hthreads k hk]
    exact h.held k hk
  · intro hfree
    rw [hstate] at hfree
    rw [hsem, hbusy, hints, hdisplay, hghost]
    exact h.free hfree
  · rw [hcount, hints, hdisplay]
    exact h.count

theorem WriteInv.of_held (hk : (s.lock .write).state = some k)
    (hphase : WritePhase (s.sem .write) s.console.putBusy s.writeInts k (s.threads k))
    (hdisplay : s.display = s.written.map Prod.snd ++ (s.threads k).shown)
    (hcount : s.numConsoleCharsWritten + s.writeInts = s.display.length) : WriteInv s := by
  refine ⟨fun j hj => ?_, fun hfree => ?_, hcount⟩
  · rw [hk] at hj
    cases hj
    exact ⟨hphase, hdisplay⟩
  · rw [hk] at hfree
    cases hfree

/-- A step of thread `k` that changes nothing but its own half. -/
structure Own (s s' : Kernel) (k : ℕ) (side : Side) : Prop where
  lock : ∀ other, other ≠ side → s'.lock other = s.lock other
  sem : ∀ other, other ≠ side → s'.sem other = s.sem other
  threads : ∀ j, j ≠ k → (s.threads j).role side ≠ .waiting → s'.threads j = s.threads j
  typed : s'.typed = s.typed
  keyboard : s'.keyboard = s.keyboard

/-- The holder of the other lock is another thread, and not one that waits here. -/
theorem LocksInv.holder_ne (h : LocksInv s) (side : Side) (hother : other ≠ side)
    (hk : (s.threads k).pc.call.map Call.side ≠ some other)
    (hj : (s.lock other).state = some j) : j ≠ k ∧ (s.threads j).role side ≠ .waiting := by
  have hside := h.holder_side hj
  constructor
  · rintro rfl
    exact hk hside
  · simp [Thread.role, hside, hother]

theorem Own.read (ho : Own s s' k .write) (hl : LocksInv s) (h : ReadInv s)
    (hk : (s.threads k).pc.call.map Call.side ≠ some .read)
    (hincoming : s'.console.incoming = s.console.incoming) (hreturned : s'.returned = s.returned) :
    ReadInv s' := by
  have hlock := ho.lock .read (by decide)
  refine h.frame (by rw [hlock]) (ho.sem .read (by decide)) ⟨hincoming, ho.keyboard⟩
    ⟨ho.typed, hreturned⟩ fun j hj => ?_
  obtain ⟨hne, hrole⟩ := hl.holder_ne .write (by decide) hk hj
  exact ho.threads j hne hrole

theorem Own.write (ho : Own s s' k .read) (hl : LocksInv s) (h : WriteInv s)
    (hk : (s.threads k).pc.call.map Call.side ≠ some .write)
    (hdevice : s'.console.putBusy = s.console.putBusy ∧ s'.writeInts = s.writeInts ∧
      s'.display = s.display ∧ s'.numConsoleCharsWritten = s.numConsoleCharsWritten)
    (hwritten : s'.written = s.written) : WriteInv s' := by
  have hlock := ho.lock .write (by decide)
  refine h.frame (by rw [hlock]) (ho.sem .write (by decide)) hdevice hwritten fun j hj => ?_
  obtain ⟨hne, hrole⟩ := hl.holder_ne .read (by decide) hk hj
  exact ho.threads j hne hrole

/-! ## §3  The steps of a call -/

theorem own_setThread (s : Kernel) (k : ℕ) (t : Thread) (side : Side) :
    Own s (s.setThread k t) k side :=
  ⟨fun _ _ => rfl, fun _ _ => rfl, fun j hj _ => by simp [hj], rfl, rfl⟩

theorem own_acquire (s : Kernel) (k : ℕ) (call : Call) : Own s (s.acquire k call) k call.side := by
  cases hstate : (s.lock call.side).state with
  | none =>
      rw [acquire_of_free hstate]
      exact ⟨fun o ho => by simp [ho], fun _ _ => rfl, fun j hj _ => by simp [hj], rfl, rfl⟩
  | some i =>
      rw [acquire_of_held hstate]
      exact ⟨fun o ho => by simp [ho], fun _ _ => rfl, fun j hj _ => by simp [hj], rfl, rfl⟩

theorem own_P (s : Kernel) (k : ℕ) (call : Call) : Own s (s.P k call) k call.side := by
  unfold P
  dsimp only
  split
  · exact ⟨fun _ _ => rfl, fun o ho => by simp [ho], fun j hj _ => by simp [hj], rfl, rfl⟩
  · exact ⟨fun _ _ => rfl, fun o ho => by simp [ho], fun j hj _ => by simp [hj], rfl, rfl⟩

theorem wakeHead_same (s : Kernel) (queue : List ℕ) :
    (s.wakeHead queue).typed = s.typed ∧ (s.wakeHead queue).keyboard = s.keyboard ∧
    (s.wakeHead queue).console = s.console ∧ (s.wakeHead queue).returned = s.returned ∧
    (s.wakeHead queue).written = s.written ∧ (s.wakeHead queue).writeInts = s.writeInts ∧
    (s.wakeHead queue).display = s.display ∧
    (s.wakeHead queue).numConsoleCharsWritten = s.numConsoleCharsWritten := by
  unfold wakeHead
  split <;> exact ⟨rfl, rfl, rfl, rfl, rfl, rfl, rfl, rfl⟩

theorem LocksInv.own_leave (h : LocksInv s) (k : ℕ) (side : Side) :
    Own s (s.leave k side) k side := by
  obtain ⟨htyped, hkeyboard, -⟩ := wakeHead_same s (s.lock side).queue
  refine ⟨fun o ho => by simp [Kernel.leave, ho], fun _ _ => by simp [Kernel.leave],
    fun j hj hrole => ?_, htyped, hkeyboard⟩
  rw [Kernel.leave, threads_setThread, Function.update_of_ne hj, threads_setLock,
    threads_wakeHead, if_neg]
  exact fun hhead => hrole (h.head_role hhead)

/-- Nothing that the device or the ghosts have has changed. -/
structure Undisturbed (s s' : Kernel) : Prop where
  console : s'.console = s.console
  display : s'.writeInts = s.writeInts ∧ s'.display = s.display ∧
    s'.numConsoleCharsWritten = s.numConsoleCharsWritten
  ghosts : s'.returned = s.returned ∧ s'.written = s.written
  typed : s'.typed = s.typed ∧ s'.keyboard = s.keyboard

theorem undisturbed_acquire (s : Kernel) (k : ℕ) (call : Call) :
    Undisturbed s (s.acquire k call) := by
  unfold acquire
  dsimp only
  split <;> exact ⟨rfl, ⟨rfl, rfl, rfl⟩, ⟨rfl, rfl⟩, rfl, rfl⟩

theorem undisturbed_P (s : Kernel) (k : ℕ) (call : Call) : Undisturbed s (s.P k call) := by
  unfold P
  dsimp only
  split <;> exact ⟨rfl, ⟨rfl, rfl, rfl⟩, ⟨rfl, rfl⟩, rfl, rfl⟩

theorem Undisturbed.chars (h : Undisturbed s s') {hand : List Byte} (hc : s.Chars hand) :
    s'.Chars hand := by
  unfold Chars at *
  rw [h.typed.1, h.typed.2, h.ghosts.1, h.console]
  exact hc

/-- The half that a step of `k` is not in. -/
theorem Own.outside (ho : Own s s' k side) (hu : Undisturbed s s') (hl : LocksInv s)
    (hk : ∀ other, other ≠ side → (s.threads k).pc.call.map Call.side ≠ some other) :
    (side = .write → ReadInv s → ReadInv s') ∧ (side = .read → WriteInv s → WriteInv s') := by
  constructor
  · rintro rfl h
    exact ho.read hl h (hk .read (by decide)) (by rw [hu.console]) hu.ghosts.1
  · rintro rfl h
    exact ho.write hl h (hk .write (by decide))
      ⟨by rw [hu.console], hu.display.1, hu.display.2.1, hu.display.2.2⟩ hu.ghosts.2

/-- A call begins, of either half. -/
theorem Inv.acquire (h : Inv s) (hk : s.threads k = ⟨false, .out⟩) (call : Call) :
    Inv (s.acquire k call) := by
  have ho := own_acquire s k call
  have hu := undisturbed_acquire s k call
  have hout : ∀ other, other ≠ call.side → (s.threads k).pc.call.map Call.side ≠ some other := by
    simp [hk, Pc.call]
  obtain ⟨hread, hwrite⟩ := ho.outside hu h.locks hout
  have hne {j : ℕ} {side : Side} (hj : (s.lock side).state = some j) : j ≠ k := by
    rintro rfl
    have hside := h.locks.holder_side hj
    simp [hk, Pc.call] at hside
  refine ⟨h.locks.acquire hk call, fun htyped => ?_, ?_⟩
  · rw [hu.typed.1] at htyped
    have hr := h.read htyped
    cases call with
    | ecrirechar car => exact hread rfl hr
    | lirechar =>
        cases hstate : (s.lock (Call.side .lirechar)).state with
        | none =>
            obtain ⟨hrest, hchars⟩ := hr.free hstate
            refine ReadInv.of_held (k := k) ?_ ?_ ?_ <;> rw [acquire_of_free hstate]
            · simp [Call.side]
            · rw [threads_setThread, Function.update_self]
              exact ⟨rfl, hrest⟩
            · rw [threads_setThread, Function.update_self]
              exact hchars
        | some i =>
            refine hr.frame ?_ ?_ ⟨by rw [hu.console], hu.typed.2⟩ ⟨hu.typed.1, hu.ghosts.1⟩
              fun j hj => ?_ <;> rw [acquire_of_held hstate]
            · simp [Call.side]
            · simp
            · simp [hne hj]
  · cases call with
    | lirechar => exact hwrite rfl h.write
    | ecrirechar car =>
        cases hstate : (s.lock (Call.side (.ecrirechar car))).state with
        | none =>
            obtain ⟨hrest, hdisplay⟩ := h.write.free hstate
            refine WriteInv.of_held (k := k) ?_ ?_ ?_ ?_ <;> rw [acquire_of_free hstate]
            · simp [Call.side]
            · rw [threads_setThread, Function.update_self]
              exact ⟨rfl, hrest⟩
            · rw [threads_setThread, Function.update_self]
              exact hdisplay.trans (List.append_nil _).symm
            · exact h.write.count
        | some i =>
            refine h.write.frame ?_ ?_ ⟨by rw [hu.console], hu.display⟩ hu.ghosts.2
              fun j hj => ?_ <;> rw [acquire_of_held hstate]
            · simp [Call.side]
            · simp
            · simp [hne hj]

/-- A step of a call of `lirechar` is about the reading half only. -/
theorem Inv.of_read (h : Inv s) (hcall : (s.threads k).pc.call = some .lirechar)
    (ho : Own s s' k .read) (hl : LocksInv s')
    (hdevice : s'.console.putBusy = s.console.putBusy ∧ s'.writeInts = s.writeInts ∧
      s'.display = s.display ∧ s'.numConsoleCharsWritten = s.numConsoleCharsWritten)
    (hwritten : s'.written = s.written) (hread : ReadInv s → ReadInv s') : Inv s' := by
  refine ⟨hl, fun htyped => hread (h.read ?_), ?_⟩
  · rwa [← ho.typed]
  · exact ho.write h.locks h.write (by simp [hcall, Call.side]) hdevice hwritten

theorem Inv.of_write {car : Byte} (h : Inv s)
    (hcall : (s.threads k).pc.call = some (.ecrirechar car)) (ho : Own s s' k .write)
    (hl : LocksInv s') (hincoming : s'.console.incoming = s.console.incoming)
    (hreturned : s'.returned = s.returned) (hwrite : WriteInv s') : Inv s' := by
  refine ⟨hl, fun htyped => ?_, hwrite⟩
  rw [ho.typed] at htyped
  exact ho.read h.locks (h.read htyped) (by simp [hcall, Call.side]) hincoming hreturned

/-- The holder goes on to `t`, and no lock or semaphore changes. -/
theorem LocksInv.setThread (h : LocksInv s) (hblocked : (s.threads k).blocked = false)
    (hcall : (s.threads k).pc.call = some call) (ht : t.pc.call = some call)
    (htb : t.blocked = false) (hlock : s'.lock = s.lock) (hsem : s'.sem = s.sem)
    (hthreads : s'.threads = Function.update s.threads k t) : LocksInv s' := by
  refine h.move hlock hthreads (fun side => ?_) fun side => ?_
  · rw [role_of_call ht, role_of_call hcall, htb, hblocked]
    simp
  · exact h.sleepers_move _ hblocked (fun _ => by rw [hsem]) hthreads side

/-- `P` by the reader: it takes the character that is there, or sleeps. -/
theorem ReadInv.P (h : ReadInv s) (hk : (s.lock .read).state = some k)
    (hblocked : (s.threads k).blocked = false)
    (hpc : (s.threads k).pc = .acquired .lirechar ∨ (s.threads k).pc = .waiting .lirechar) :
    ReadInv (s.P k .lirechar) := by
  obtain ⟨hphase, hchars⟩ := h.held k hk
  have hrest : ReadRest (s.sem .read) s.console.incoming := by
    unfold ReadPhase at hphase
    rcases hpc with hpc | hpc <;> rw [hpc] at hphase
    · exact hphase.2
    · rcases hphase with ⟨hb, -⟩ | ⟨-, hsem, hin⟩
      · rw [hblocked] at hb
        cases hb
      · rw [ReadRest, if_neg hin, hsem]
  have hhand : (s.threads k).inHand = [] := by
    rcases hpc with hpc | hpc <;> simp [Thread.inHand, hpc]
  rw [hhand] at hchars
  have hu := undisturbed_P s k .lirechar
  by_cases hin : s.console.incoming = EOF
  · rw [ReadRest, if_pos hin] at hrest
    have hP : s.P k .lirechar =
        (s.setSem .read ⟨0, [k]⟩).setThread k ⟨true, .waiting .lirechar⟩ := by
      simp [Kernel.P, Call.side, hrest]
    have hchars' := hu.chars hchars
    rw [hP] at hchars' ⊢
    refine ReadInv.of_held (k := k) hk ?_ ?_ <;> rw [threads_setThread, Function.update_self]
    · exact Or.inl ⟨rfl, by simp, hin⟩
    · exact hchars'
  · rw [ReadRest, if_neg hin] at hrest
    have hP : s.P k .lirechar =
        (s.setSem .read ⟨0, []⟩).setThread k ⟨false, .passed .lirechar⟩ := by
      simp [Kernel.P, Call.side, hrest]
    have hchars' := hu.chars hchars
    rw [hP] at hchars' ⊢
    refine ReadInv.of_held (k := k) hk ?_ ?_ <;> rw [threads_setThread, Function.update_self]
    · exact ⟨rfl, by simp, hin⟩
    · exact hchars'

/-- `P` by the writer: it goes on when its character has been shown. -/
theorem WriteInv.P {car : Byte} (h : WriteInv s) (hk : (s.lock .write).state = some k)
    (hblocked : (s.threads k).blocked = false)
    (hpc : (s.threads k).pc = .put car ∨ (s.threads k).pc = .waiting (.ecrirechar car)) :
    WriteInv (s.P k (.ecrirechar car)) := by
  obtain ⟨hphase, hdisplay⟩ := h.held k hk
  have hcases : s.sem .write = ⟨0, []⟩ ∧ s.console.putBusy = true ∧ s.writeInts = 1 ∨
      s.sem .write = ⟨1, []⟩ ∧ s.console.putBusy = false ∧ s.writeInts = 0 := by
    unfold WritePhase at hphase
    rcases hpc with hpc | hpc <;> rw [hpc] at hphase
    · exact hphase.2
    · rcases hphase with ⟨hb, -⟩ | ⟨-, hrest⟩
      · rw [hblocked] at hb
        cases hb
      · exact Or.inr hrest
  have hshown : (s.threads k).shown = [car] := by
    rcases hpc with hpc | hpc <;> simp [Thread.shown, hpc]
  rw [hshown] at hdisplay
  rcases hcases with ⟨hsem, hbusy, hints⟩ | ⟨hsem, hbusy, hints⟩
  · have hP : s.P k (.ecrirechar car) =
        (s.setSem .write ⟨0, [k]⟩).setThread k ⟨true, .waiting (.ecrirechar car)⟩ := by
      simp [Kernel.P, Call.side, hsem]
    rw [hP]
    refine WriteInv.of_held (k := k) hk ?_ ?_ h.count <;>
      rw [threads_setThread, Function.update_self]
    · exact Or.inl ⟨rfl, by simp, hbusy, hints⟩
    · exact hdisplay
  · have hP : s.P k (.ecrirechar car) =
        (s.setSem .write ⟨0, []⟩).setThread k ⟨false, .passed (.ecrirechar car)⟩ := by
      simp [Kernel.P, Call.side, hsem]
    rw [hP]
    refine WriteInv.of_held (k := k) hk ?_ ?_ h.count <;>
      rw [threads_setThread, Function.update_self]
    · exact ⟨rfl, by simp, hbusy, hints⟩
    · exact hdisplay

/-- Whoever waits for a lock sleeps in `Acquire`. -/
theorem eq_of_waiting (h : t.role side = .waiting) :
    ∃ call, t = ⟨true, .acquiring call⟩ ∧ call.side = side := by
  obtain ⟨blocked, pc⟩ := t
  have hside := side_of_role side (t := ⟨blocked, pc⟩) (by rw [h]; exact LockRole.noConfusion)
  simp only [Thread.role, hside, if_true] at h
  split at h
  · rename_i hwait
    obtain ⟨rfl, hacq⟩ := hwait
    cases pc with
    | acquiring call => exact ⟨call, rfl, by simpa [Pc.call] using hside⟩
    | out | acquired | put | waiting | passed | took => cases hacq
  · cases h

theorem LocksInv.woken (h : LocksInv s) (hk : (s.lock side).state = some k)
    (hj : (s.lock side).queue.head? = some j) :
    ∃ call, (s.leave k side).threads j = ⟨false, .acquiring call⟩ ∧ call.side = side := by
  obtain ⟨call, heq, hside⟩ := eq_of_waiting (h.head_role hj)
  have hjk : j ≠ k := by
    rintro rfl
    exact (h.lock side).not_mem_queue hk (List.mem_of_mem_head? hj)
  refine ⟨call, ?_, hside⟩
  rw [Kernel.leave, threads_setThread, Function.update_of_ne hjk, threads_setLock,
    threads_wakeHead, if_pos hj, heq]

theorem ReadInv.leave {temp : Byte} (h : ReadInv s) (hl : LocksInv s)
    (hk : (s.lock .read).state = some k) (hpc : (s.threads k).pc = .took temp) :
    ReadInv { s.leave k .read with returned := s.returned ++ [(k, temp)] } := by
  obtain ⟨hphase, hchars⟩ := h.held k hk
  obtain ⟨htyped, hkeyboard, hconsole, -⟩ := wakeHead_same s (s.lock .read).queue
  have hrest : ReadRest (s.sem .read) s.console.incoming := by
    unfold ReadPhase at hphase
    rw [hpc] at hphase
    exact hphase.2
  have hrest' : ReadRest ((s.leave k .read).sem .read) (s.leave k .read).console.incoming := by
    simpa [Kernel.leave, Kernel.setThread, Kernel.setLock, hconsole] using hrest
  have hchars' : Chars { s.leave k .read with returned := s.returned ++ [(k, temp)] } [] := by
    simp only [Thread.inHand, hpc, Chars] at hchars
    simp only [Chars, Kernel.leave, Kernel.setThread, Kernel.setLock, htyped, hkeyboard, hconsole]
    simpa using hchars
  have hstate : ((s.leave k .read).lock .read).state = (s.lock .read).queue.head? := by
    simp [Kernel.leave, HandoffLock.handOver]
  constructor
  · intro j hj
    obtain ⟨call, heq, hside⟩ := hl.woken hk (hstate.symm.trans hj)
    cases call with
    | ecrirechar => cases hside
    | lirechar =>
        change ReadPhase _ _ _ ((s.leave k .read).threads j) ∧
          Chars _ ((s.leave k .read).threads j).inHand
        rw [heq]
        exact ⟨⟨rfl, hrest'⟩, hchars'⟩
  · exact fun _ => ⟨hrest', hchars'⟩

theorem WriteInv.leave {car : Byte} (h : WriteInv s) (hl : LocksInv s)
    (hk : (s.lock .write).state = some k) (hpc : (s.threads k).pc = .passed (.ecrirechar car)) :
    WriteInv { s.leave k .write with written := s.written ++ [(k, car)] } := by
  obtain ⟨hphase, hdisplay⟩ := h.held k hk
  obtain ⟨-, -, hconsole, -, -, hints, hshown, hcount⟩ := wakeHead_same s (s.lock .write).queue
  have hrest : WriteRest (s.sem .write) s.console.putBusy s.writeInts := by
    unfold WritePhase at hphase
    rw [hpc] at hphase
    exact hphase.2
  have hrest' : WriteRest ((s.leave k .write).sem .write) (s.leave k .write).console.putBusy
      (s.leave k .write).writeInts := by
    simpa [Kernel.leave, Kernel.setThread, Kernel.setLock, hconsole, hints] using hrest
  have hdisplay' : (s.leave k .write).display =
      (s.written ++ [(k, car)]).map Prod.snd := by
    simp only [Thread.shown, hpc] at hdisplay
    simpa [Kernel.leave, Kernel.setThread, Kernel.setLock, hshown] using hdisplay
  have hstate : ((s.leave k .write).lock .write).state = (s.lock .write).queue.head? := by
    simp [Kernel.leave, HandoffLock.handOver]
  refine ⟨fun j hj => ?_, fun _ => ⟨hrest', hdisplay'⟩, ?_⟩
  · obtain ⟨call, heq, hside⟩ := hl.woken hk (hstate.symm.trans hj)
    cases call with
    | lirechar => cases hside
    | ecrirechar car' =>
        change WritePhase _ _ _ _ ((s.leave k .write).threads j) ∧
          _ = _ ++ ((s.leave k .write).threads j).shown
        rw [heq]
        exact ⟨⟨rfl, hrest'⟩, hdisplay'.trans (List.append_nil _).symm⟩
  · change (s.leave k .write).numConsoleCharsWritten + (s.leave k .write).writeInts =
      (s.leave k .write).display.length
    simp only [Kernel.leave, Kernel.setThread, Kernel.setLock, hints, hshown, hcount]
    exact h.count

/-- The lock is its own: `Acquire` returns. -/
theorem Inv.acquireSlept (h : Inv s) (hblocked : (s.threads k).blocked = false)
    (hpc : (s.threads k).pc = .acquiring call) : Inv (s.acquireSlept k call) := by
  have hl := h.locks
  have hcall : (s.threads k).pc.call = some call := by rw [hpc]; rfl
  have hk := hl.state_eq hblocked hcall
  rw [acquireSlept_eq hk]
  have hl' : LocksInv (s.setThread k ⟨false, .acquired call⟩) :=
    hl.setThread hblocked hcall rfl rfl rfl rfl rfl
  cases call with
  | lirechar =>
      refine h.of_read hcall (own_setThread s k _ _) hl' ⟨rfl, rfl, rfl, rfl⟩ rfl fun hr => ?_
      obtain ⟨hphase, hchars⟩ := hr.held k hk
      rw [ReadPhase, hpc] at hphase
      rw [Thread.inHand, hpc] at hchars
      refine ReadInv.of_held (k := k) hk ?_ ?_ <;> rw [threads_setThread, Function.update_self]
      · exact ⟨rfl, hphase.2⟩
      · exact hchars
  | ecrirechar car =>
      refine h.of_write hcall (own_setThread s k _ _) hl' rfl rfl ?_
      obtain ⟨hphase, hdisplay⟩ := h.write.held k hk
      rw [WritePhase, hpc] at hphase
      rw [Thread.shown, hpc] at hdisplay
      refine WriteInv.of_held (k := k) hk ?_ ?_ h.write.count <;>
        rw [threads_setThread, Function.update_self]
      · exact ⟨rfl, hphase.2⟩
      · exact hdisplay

theorem Inv.P_read (h : Inv s) (hblocked : (s.threads k).blocked = false)
    (hpc : (s.threads k).pc = .acquired .lirechar ∨ (s.threads k).pc = .waiting .lirechar) :
    Inv (s.P k .lirechar) := by
  have hcall : (s.threads k).pc.call = some .lirechar := by
    rcases hpc with hpc | hpc <;> rw [hpc] <;> rfl
  have hu := undisturbed_P s k .lirechar
  refine h.of_read hcall (own_P s k .lirechar) (h.locks.P hblocked hcall)
    ⟨by rw [hu.console], hu.display⟩ hu.ghosts.2 fun hr => ?_
  exact hr.P (h.locks.state_eq hblocked hcall) hblocked hpc

theorem Inv.P_write {car : Byte} (h : Inv s) (hblocked : (s.threads k).blocked = false)
    (hpc : (s.threads k).pc = .put car ∨ (s.threads k).pc = .waiting (.ecrirechar car)) :
    Inv (s.P k (.ecrirechar car)) := by
  have hcall : (s.threads k).pc.call = some (.ecrirechar car) := by
    rcases hpc with hpc | hpc <;> rw [hpc] <;> rfl
  have hu := undisturbed_P s k (.ecrirechar car)
  exact h.of_write hcall (own_P s k (.ecrirechar car)) (h.locks.P hblocked hcall)
    (by rw [hu.console]) hu.ghosts.1
    (h.write.P (h.locks.state_eq hblocked hcall) hblocked hpc)

/-- The writer finds the device idle. -/
theorem Inv.putChar {car : Byte} (h : Inv s) (hblocked : (s.threads k).blocked = false)
    (hpc : (s.threads k).pc = .acquired (.ecrirechar car)) :
    ∃ s', s.putChar k car = some s' ∧ Inv s' := by
  have hcall : (s.threads k).pc.call = some (.ecrirechar car) := by rw [hpc]; rfl
  have hk := h.locks.state_eq hblocked hcall
  obtain ⟨hphase, hdisplay⟩ := h.write.held k hk
  rw [WritePhase, hpc] at hphase
  rw [Thread.shown, hpc, List.append_nil] at hdisplay
  obtain ⟨-, hsem, hbusy, hints⟩ := hphase
  refine ⟨_, if_pos hbusy, ?_⟩
  refine h.of_write hcall ⟨fun _ _ => rfl, fun _ _ => rfl, fun j hj _ => by simp [hj], rfl, rfl⟩
    (h.locks.setThread hblocked hcall (t := ⟨false, .put car⟩) rfl rfl rfl rfl rfl) rfl rfl ?_
  refine WriteInv.of_held (k := k) hk ?_ ?_ ?_
  · rw [threads_setThread, Function.update_self]
    exact ⟨rfl, Or.inl ⟨hsem, rfl, by simpa [Kernel.setThread] using hints⟩⟩
  · rw [threads_setThread, Function.update_self]
    simp [Kernel.setThread, Thread.shown, hdisplay]
  · have hcount := h.write.count
    simp only [Kernel.setThread, List.length_append, List.length_singleton]
    omega

/-- The reader finds a character. -/
theorem Inv.getChar (h : Inv s) (hblocked : (s.threads k).blocked = false)
    (hpc : (s.threads k).pc = .passed .lirechar) : Inv (s.getChar k) := by
  have hcall : (s.threads k).pc.call = some .lirechar := by rw [hpc]; rfl
  have hk := h.locks.state_eq hblocked hcall
  refine h.of_read hcall ⟨fun _ _ => rfl, fun _ _ => rfl,
    fun j hj _ => by simp [Kernel.getChar, hj], rfl, rfl⟩
    (h.locks.setThread hblocked hcall (t := ⟨false, .took s.console.incoming⟩) rfl rfl rfl rfl rfl)
    ⟨rfl, rfl, rfl, rfl⟩ rfl fun hr => ?_
  obtain ⟨hphase, hchars⟩ := hr.held k hk
  rw [ReadPhase, hpc] at hphase
  rw [Thread.inHand, hpc] at hchars
  obtain ⟨-, hsem, hin⟩ := hphase
  refine ReadInv.of_held (k := k) hk ?_ ?_ <;> unfold Kernel.getChar <;>
    rw [threads_setThread, Function.update_self]
  · exact ⟨rfl, by simp [ReadRest, Kernel.setThread, hsem]⟩
  · simp only [Chars, if_neg hin] at hchars
    simp only [Chars, Kernel.setThread, Thread.inHand, if_true]
    simpa using hchars

/-- `Release` finds its caller in possession of the lock, and the call returns. -/
theorem Inv.leave_write {car : Byte} (h : Inv s) (hblocked : (s.threads k).blocked = false)
    (hpc : (s.threads k).pc = .passed (.ecrirechar car)) :
    s.next k = some { s.leave k .write with written := s.written ++ [(k, car)] } ∧
      Inv { s.leave k .write with written := s.written ++ [(k, car)] } := by
  have hl := h.locks
  have hcall : (s.threads k).pc.call = some (.ecrirechar car) := by rw [hpc]; rfl
  have hk := hl.state_eq hblocked hcall
  have hown := hl.own_leave k .write
  have hl' := hl.leave hblocked hcall
  obtain ⟨-, -, hconsole, hreturned, hwritten, -⟩ := wakeHead_same s (s.lock .write).queue
  constructor
  · rw [Kernel.next, hpc]
    refine Option.map_eq_some_iff.mpr ⟨_, release_eq_some.mpr ⟨hk, rfl⟩, ?_⟩
    change ({ (s.wakeHead (s.lock .write).queue).setLock .write (s.lock .write).handOver with
      written := (s.wakeHead (s.lock .write).queue).written ++ [(k, car)] } : Kernel).setThread k
        ⟨false, .out⟩ = _
    rw [hwritten]
    rfl
  · refine h.of_write hcall ⟨hown.lock, hown.sem, hown.threads, hown.typed, hown.keyboard⟩
      ⟨hl'.lock, hl'.sleepers⟩ ?_ hreturned (h.write.leave hl hk hpc)
    change (s.wakeHead (s.lock .write).queue).console.incoming = _
    rw [hconsole]

theorem Inv.leave_read {temp : Byte} (h : Inv s) (hblocked : (s.threads k).blocked = false)
    (hpc : (s.threads k).pc = .took temp) :
    s.next k = some { s.leave k .read with returned := s.returned ++ [(k, temp)] } ∧
      Inv { s.leave k .read with returned := s.returned ++ [(k, temp)] } := by
  have hl := h.locks
  have hcall : (s.threads k).pc.call = some .lirechar := by rw [hpc]; rfl
  have hk := hl.state_eq hblocked hcall
  have hown := hl.own_leave k .read
  have hl' := hl.leave hblocked hcall
  obtain ⟨-, -, hconsole, hreturned, hwritten, hints, hdisplay, hcount⟩ :=
    wakeHead_same s (s.lock .read).queue
  constructor
  · rw [Kernel.next, hpc]
    refine Option.map_eq_some_iff.mpr ⟨_, release_eq_some.mpr ⟨hk, rfl⟩, ?_⟩
    change ({ (s.wakeHead (s.lock .read).queue).setLock .read (s.lock .read).handOver with
      returned := (s.wakeHead (s.lock .read).queue).returned ++ [(k, temp)] } : Kernel).setThread k
        ⟨false, .out⟩ = _
    rw [hreturned]
    rfl
  · refine h.of_read hcall ⟨hown.lock, hown.sem, hown.threads, hown.typed, hown.keyboard⟩
      ⟨hl'.lock, hl'.sleepers⟩ ⟨?_, hints, hdisplay, hcount⟩ hwritten fun hr => hr.leave hl hk hpc
    change (s.wakeHead (s.lock .read).queue).console.putBusy = _
    rw [hconsole]

/-- **Every step inside a call** succeeds and keeps the invariant. -/
theorem Inv.next (h : Inv s) (hblocked : (s.threads k).blocked = false)
    (hin : (s.threads k).pc ≠ .out) : ∃ s', s.next k = some s' ∧ Inv s' := by
  cases hpc : (s.threads k).pc with
  | out => exact absurd hpc hin
  | acquiring call => exact ⟨_, by rw [Kernel.next, hpc], h.acquireSlept hblocked hpc⟩
  | acquired call =>
      cases call with
      | lirechar => exact ⟨_, by rw [Kernel.next, hpc], h.P_read hblocked (Or.inl hpc)⟩
      | ecrirechar car =>
          obtain ⟨s', hs', hinv⟩ := h.putChar hblocked hpc
          exact ⟨s', by rw [Kernel.next, hpc]; exact hs', hinv⟩
  | put car => exact ⟨_, by rw [Kernel.next, hpc], h.P_write hblocked (Or.inl hpc)⟩
  | waiting call =>
      cases call with
      | lirechar => exact ⟨_, by rw [Kernel.next, hpc], h.P_read hblocked (Or.inr hpc)⟩
      | ecrirechar car => exact ⟨_, by rw [Kernel.next, hpc], h.P_write hblocked (Or.inr hpc)⟩
  | passed call =>
      cases call with
      | lirechar => exact ⟨_, by rw [Kernel.next, hpc], h.getChar hblocked hpc⟩
      | ecrirechar car => exact ⟨_, h.leave_write hblocked hpc⟩
  | took temp => exact ⟨_, h.leave_read hblocked hpc⟩

/-! ## §4  The interrupts -/

theorem V_of_nil {value : ℕ} (hsem : s.sem side = ⟨value, []⟩) :
    s.V side = s.setSem side ⟨value + 1, []⟩ := by
  rw [V_eq, hsem]
  rfl

theorem V_of_one {value : ℕ} (hsem : s.sem side = ⟨value, [k]⟩) :
    s.V side = (s.readyToRun k).setSem side ⟨value + 1, []⟩ := by
  rw [V_eq, hsem]
  rfl

theorem undisturbed_V (s : Kernel) (side : Side) : Undisturbed s (s.V side) := by
  unfold V
  dsimp only
  split <;> exact ⟨rfl, ⟨rfl, rfl, rfl⟩, ⟨rfl, rfl⟩, rfl, rfl⟩

/-- `V` of one half does not touch the holder of the other lock. -/
theorem LocksInv.holder_V (h : LocksInv s) (hother : other ≠ side)
    (hk : (s.lock other).state = some k) : (s.V side).threads k = s.threads k := by
  rw [V_eq, threads_setSem, threads_wakeHead, if_neg]
  intro hhead
  rcases h.sleepers side with hnil | ⟨j, call, hone, hj, hside⟩
  · rw [hnil] at hhead
    cases hhead
  · rw [hone] at hhead
    obtain rfl := Option.some.inj hhead
    have hk' := h.holder_side hk
    rw [hj] at hk'
    simp only [Pc.call, Option.map_some, Option.some.injEq] at hk'
    exact hother (hk'.symm.trans hside)

theorem lock_V (s : Kernel) (side other : Side) : (s.V side).lock other = s.lock other := by
  rw [V_eq, lock_setSem, lock_wakeHead]

theorem sem_V (s : Kernel) (hother : other ≠ side) : (s.V side).sem other = s.sem other := by
  rw [V_eq, sem_setSem, Function.update_of_ne hother, sem_wakeHead]

theorem Inv.type (h : Inv s) (c : Byte) :
    Inv { s with keyboard := s.keyboard ++ [c], typed := s.typed ++ [c] } := by
  have hchars {hand : List Byte} (hc : s.Chars hand) :
      Chars { s with keyboard := s.keyboard ++ [c], typed := s.typed ++ [c] } hand := by
    unfold Chars at *
    rw [hc]
    simp
  refine ⟨⟨h.locks.lock, h.locks.sleepers⟩, fun htyped => ?_, ⟨h.write.held, h.write.free,
    h.write.count⟩⟩
  have hr := h.read fun hmem => htyped (List.mem_append_left _ hmem)
  exact ⟨fun k hk => ⟨(hr.held k hk).1, hchars (hr.held k hk).2⟩,
    fun hfree => ⟨(hr.free hfree).1, hchars (hr.free hfree).2⟩⟩

/-- A character goes from the keyboard to the device. -/
theorem ReadInv.poll {s₁ : Kernel} {c : Byte} {keyboard : List Byte} (h : ReadInv s)
    (hin : s.console.incoming = EOF) (hkeyboard : s.keyboard = c :: keyboard) (hc : c ≠ EOF)
    (hs₁ : s₁ = { s with keyboard, console := { s.console with incoming := c } }) :
    ReadInv (s₁.V .read) := by
  have hu := undisturbed_V s₁ .read
  have hchars {hand : List Byte} (hold : s.Chars hand) : (s₁.V .read).Chars hand := by
    apply hu.chars
    unfold Chars at *
    rw [hs₁]
    simpa [hin, hkeyboard, hc] using hold
  have hincoming : (s₁.V .read).console.incoming = c := by rw [hu.console, hs₁]
  have hsem₁ : s₁.sem .read = s.sem .read := by rw [hs₁]
  have hthreads₁ : s₁.threads = s.threads := by rw [hs₁]
  have hlock : (s₁.V .read).lock .read = s.lock .read := by rw [lock_V, hs₁]
  -- with nobody asleep the semaphore goes up, and no thread changes
  have hrest (hsem : s.sem .read = ⟨0, []⟩) :
      ReadRest ((s₁.V .read).sem .read) c ∧ (s₁.V .read).threads = s.threads := by
    rw [V_of_nil (hsem₁.trans hsem), ReadRest, if_neg hc]
    exact ⟨by simp, hthreads₁⟩
  constructor
  · intro k hk
    rw [hlock] at hk
    obtain ⟨hphase, hold⟩ := h.held k hk
    rw [hincoming]
    unfold ReadPhase at hphase
    split at hphase
    -- in the first three cases nobody is asleep
    iterate 3
      · rename_i hpc
        obtain ⟨hsem, hthreads⟩ := hrest (by rw [hphase.2, if_pos hin])
        rw [hthreads]
        exact ⟨by rw [ReadPhase, hpc]; exact ⟨hphase.1, hsem⟩, hchars hold⟩
    · rename_i hpc
      rcases hphase with ⟨-, hsem, -⟩ | ⟨-, -, hne⟩
      · have hV := V_of_one (hsem₁.trans hsem)
        have hk' : (s₁.V .read).threads k = ⟨false, .waiting .lirechar⟩ := by
          rw [hV]
          simp [readyToRun, hthreads₁, hpc]
        have hhand : (s.threads k).inHand = [] := by simp [Thread.inHand, hpc]
        rw [hk']
        rw [hhand] at hold
        refine ⟨Or.inr ⟨rfl, ?_, hc⟩, hchars hold⟩
        rw [hV]
        simp
      · exact absurd hin hne
    · exact absurd hin hphase.2.2
    · exact hphase.elim
  · intro hfree
    rw [hlock] at hfree
    obtain ⟨hsem, hold⟩ := h.free hfree
    rw [hincoming]
    exact ⟨(hrest (by rw [hsem, if_pos hin])).1, hchars hold⟩

theorem Inv.poll (h : Inv s) : Inv s.checkCharAvail := by
  unfold checkCharAvail
  by_cases hin : s.console.incoming = EOF
  · rw [if_neg (not_not.mpr hin)]
    cases hkeyboard : s.keyboard with
    | nil => exact h
    | cons c keyboard =>
        obtain ⟨s₁, hs₁⟩ : ∃ s₁ : Kernel, s₁ =
            { s with keyboard, console := { s.console with incoming := c } } := ⟨_, rfl⟩
        dsimp only
        rw [← hs₁]
        have hl₁ : LocksInv s₁ := by
          rw [hs₁]
          exact ⟨h.locks.lock, h.locks.sleepers⟩
        have hu := undisturbed_V s₁ .read
        have hlock (side : Side) : (s₁.V .read).lock side = s.lock side := by rw [lock_V, hs₁]
        refine ⟨hl₁.V .read, fun htyped => ?_, ?_⟩
        · rw [hu.typed.1, hs₁] at htyped
          have hr := h.read htyped
          have hmem : c ∈ s.typed := by
            cases hstate : (s.lock .read).state with
            | none =>
                rw [(hr.free hstate).2, hkeyboard]
                simp
            | some k =>
                rw [(hr.held k hstate).2, hkeyboard]
                simp
          exact hr.poll hin hkeyboard (fun hc => htyped (hc ▸ hmem)) hs₁
        · refine h.write.frame (by rw [hlock]) ?_ ?_ ?_ fun k hk => ?_
          · rw [sem_V s₁ (by decide), hs₁]
          · rw [hu.console, hu.display.1, hu.display.2.1, hu.display.2.2, hs₁]
            exact ⟨rfl, rfl, rfl, rfl⟩
          · rw [hu.ghosts.2, hs₁]
          · have hk₁ : (s₁.lock .write).state = some k := by rw [hs₁]; exact hk
            rw [hl₁.holder_V (by decide) hk₁, hs₁]
  · rw [if_pos hin]
    exact h

/-- The character has been shown. -/
theorem WriteInv.writeDone {s₁ : Kernel} (h : WriteInv s) (hints : 0 < s.writeInts)
    (hs₁ : s₁ = { s with
      writeInts := s.writeInts - 1
      console := { s.console with putBusy := false }
      numConsoleCharsWritten := s.numConsoleCharsWritten + 1 }) :
    WriteInv (s₁.V .write) := by
  have hu := undisturbed_V s₁ .write
  obtain ⟨hints', hdisplay', hcount'⟩ := hu.display
  have hsem₁ : s₁.sem .write = s.sem .write := by rw [hs₁]
  have hthreads₁ : s₁.threads = s.threads := by rw [hs₁]
  have hlock : (s₁.V .write).lock .write = s.lock .write := by rw [lock_V, hs₁]
  have hbusy : (s₁.V .write).console.putBusy = false := by rw [hu.console, hs₁]
  have hwritten : (s₁.V .write).written = s.written := by rw [hu.ghosts.2, hs₁]
  have hshown : (s₁.V .write).display = s.display := by rw [hdisplay', hs₁]
  have hleft : (s₁.V .write).writeInts = s.writeInts - 1 := by rw [hints', hs₁]
  refine ⟨fun k hk => ?_, fun hfree => ?_, ?_⟩
  · rw [hlock] at hk
    obtain ⟨hphase, hdisplay⟩ := h.held k hk
    rw [hbusy, hwritten, hshown, hleft]
    unfold WritePhase at hphase
    split at hphase
    iterate 3 exact absurd hints (by rw [hphase.2.2.2]; exact Nat.lt_irrefl 0)
    · rename_i car hpc
      rcases hphase.2 with ⟨hsem, -, hone⟩ | ⟨-, -, hzero⟩
      · rw [V_of_nil (hsem₁.trans hsem), threads_setSem, hthreads₁]
        refine ⟨?_, hdisplay⟩
        rw [WritePhase, hpc]
        exact ⟨hphase.1, Or.inr ⟨by simp, rfl, by omega⟩⟩
      · omega
    · rename_i car hpc
      rcases hphase with ⟨-, hsem, -, hone⟩ | ⟨-, -, -, hzero⟩
      · have hV := V_of_one (hsem₁.trans hsem)
        have hk' : (s₁.V .write).threads k = ⟨false, .waiting (.ecrirechar car)⟩ := by
          rw [hV]
          simp [readyToRun, hthreads₁, hpc]
        have hcar : (s.threads k).shown = [car] := by simp [Thread.shown, hpc]
        rw [hk']
        rw [hcar] at hdisplay
        refine ⟨Or.inr ⟨rfl, ?_, rfl, by omega⟩, hdisplay⟩
        rw [hV]
        simp
      · omega
    · exact hphase.elim
  · rw [hlock] at hfree
    have hzero := (h.free hfree).1.2.2
    omega
  · have hcount := h.count
    rw [hcount', hleft, hshown, hs₁]
    dsimp only
    omega

theorem Inv.writeDone (h : Inv s) (hints : 0 < s.writeInts) :
    Inv { s with writeInts := s.writeInts - 1 }.writeDone := by
  obtain ⟨s₁, hs₁⟩ : ∃ s₁ : Kernel, s₁ = { s with
      writeInts := s.writeInts - 1
      console := { s.console with putBusy := false }
      numConsoleCharsWritten := s.numConsoleCharsWritten + 1 } := ⟨_, rfl⟩
  change Inv (Kernel.V { s with
    writeInts := s.writeInts - 1
    console := { s.console with putBusy := false }
    numConsoleCharsWritten := s.numConsoleCharsWritten + 1 } .write)
  rw [← hs₁]
  have hl₁ : LocksInv s₁ := by
    rw [hs₁]
    exact ⟨h.locks.lock, h.locks.sleepers⟩
  have hu := undisturbed_V s₁ .write
  have hlock (side : Side) : (s₁.V .write).lock side = s.lock side := by rw [lock_V, hs₁]
  refine ⟨hl₁.V .write, fun htyped => ?_, h.write.writeDone hints hs₁⟩
  rw [hu.typed.1, hs₁] at htyped
  refine (h.read htyped).frame (by rw [hlock]) ?_ ?_ ?_ fun k hk => ?_
  · rw [sem_V s₁ (by decide), hs₁]
  · rw [hu.console, hu.typed.2, hs₁]
    exact ⟨rfl, rfl⟩
  · rw [hu.typed.1, hu.ghosts.1, hs₁]
    exact ⟨rfl, rfl⟩
  · have hk₁ : (s₁.lock .read).state = some k := by rw [hs₁]; exact hk
    rw [hl₁.holder_V (by decide) hk₁, hs₁]

/-! ## §5  Every run -/

theorem inv_init : Inv init := by
  refine ⟨⟨fun side => ⟨fun k => ?_, List.nodup_nil, fun k => ?_, fun _ => rfl⟩,
    fun side => Or.inl rfl⟩, fun _ => ?_, ?_⟩
  · simp [init, role_out]
  · simp [init, role_out]
  · exact ⟨fun k hk => (by cases hk), fun _ => ⟨rfl, rfl⟩⟩
  · exact ⟨fun k hk => (by cases hk), fun _ => ⟨⟨rfl, rfl, rfl⟩, rfl⟩, rfl⟩

theorem Inv.step (h : Inv s) {a : Act} (hstep : s.step a = some s') : Inv s' := by
  cases a with
  | call k call =>
      obtain ⟨hk, heq⟩ := Option.ite_none_right_eq_some.mp hstep
      cases heq
      exact h.acquire hk call
  | next k =>
      obtain ⟨hblocked, hnext⟩ := Option.ite_none_left_eq_some.mp hstep
      have hin : (s.threads k).pc ≠ .out := by
        intro hout
        rw [Kernel.next, hout] at hnext
        cases hnext
      obtain ⟨t, ht, hinv⟩ := h.next (by simpa using hblocked) hin
      rw [hnext] at ht
      cases ht
      exact hinv
  | type c =>
      cases hstep
      exact h.type c
  | poll =>
      cases hstep
      exact h.poll
  | writeDone =>
      obtain ⟨hints, heq⟩ := Option.ite_none_right_eq_some.mp hstep
      cases heq
      exact h.writeDone hints

theorem inv_run {as : List Act} (hrun : run step init as = some s) : Inv s :=
  run_invariant inv_init (fun _ _ _ h hstep => h.step hstep) as s hrun

/-- Nothing can go on: whoever is in a call sleeps, and no interrupt brings anything. -/
structure Quiet (s : Kernel) : Prop where
  threads : ∀ k, (s.threads k).pc ≠ .out → (s.threads k).blocked = true
  writeInts : s.writeInts = 0
  poll : s.console.incoming = EOF → s.keyboard = []

/-- Somebody in a call of a half, so somebody holds its lock. -/
theorem LocksInv.exists_holder (h : LocksInv s) (hcall : (s.threads k).pc.call = some call) :
    ∃ j, (s.lock call.side).state = some j ∧
      (s.threads j).pc.call.map Call.side = some call.side := by
  cases hstate : (s.lock call.side).state with
  | none =>
      have hnil := (h.lock call.side).free hstate
      have hwait := (h.lock call.side).waiting k
      have hin := (h.lock call.side).inside k
      rw [hnil, role_of_call hcall, if_pos rfl] at hwait
      rw [hstate, role_of_call hcall, if_pos rfl] at hin
      split at hwait
      · simp at hwait
      · rename_i hne
        simp [hne] at hin
  | some j => exact ⟨j, rfl, h.holder_side hstate⟩

/-- The writer that holds the lock sleeps only while a character is being shown. -/
theorem writePhase_asleep {sem : Semaphore} {putBusy : Bool} {writeInts : ℕ}
    (h : WritePhase sem putBusy writeInts k t) (hblocked : t.blocked = true) : writeInts = 1 := by
  unfold WritePhase at h
  split at h
  iterate 4 exact absurd hblocked (by rw [h.1]; decide)
  · rcases h with ⟨-, -, -, hone⟩ | ⟨hb, -⟩
    · exact hone
    · rw [hblocked] at hb
      cases hb
  · exact h.elim

/-- The reader that holds the lock sleeps only while there is no character. -/
theorem readPhase_asleep {sem : Semaphore} {incoming : Byte} (h : ReadPhase sem incoming k t)
    (hblocked : t.blocked = true) : incoming = EOF ∧ t.inHand = [] := by
  unfold ReadPhase at h
  split at h
  iterate 3 exact absurd hblocked (by rw [h.1]; decide)
  · rename_i hpc
    rcases h with ⟨-, -, hin⟩ | ⟨hb, -⟩
    · exact ⟨hin, by simp [Thread.inHand, hpc]⟩
    · rw [hblocked] at hb
      cases hb
  · exact absurd hblocked (by rw [h.1]; decide)
  · exact h.elim

theorem length_inHand (t : Thread) : t.inHand.length ≤ 1 := by
  unfold Thread.inHand
  split <;> simp

theorem length_shown (t : Thread) : t.shown.length ≤ 1 := by
  unfold Thread.shown
  split <;> simp

/-- **Reading.** In every run, whatever threads call `lirechar` and however they are
interrupted: what they have returned, in the order in which they return, is what was
typed, in the order in which it was typed, each character once; at most one is in the hand
of a thread, at most one in the device, and the rest has not been read. (A character that
is `EOF` to the device is overwritten by the next one.) -/
theorem reads_exact (as : List Act) (s : Kernel) (hrun : run step init as = some s)
    (htyped : EOF ∉ s.typed) :
    ∃ inHand buffered, inHand.length ≤ 1 ∧ buffered.length ≤ 1 ∧
      s.typed = s.returned.map Prod.snd ++ inHand ++ buffered ++ s.keyboard := by
  have h := (inv_run hrun).read htyped
  have hbuffered : (if s.console.incoming = EOF then [] else [s.console.incoming]).length ≤ 1 := by
    split <;> simp
  cases hstate : (s.lock .read).state with
  | none => exact ⟨[], _, by simp, hbuffered, (h.free hstate).2⟩
  | some k => exact ⟨_, _, length_inHand (s.threads k), hbuffered, (h.held k hstate).2⟩

/-- Two readers, of whom the second one finds the lock held. -/
def twoReaders : List Act :=
  [.call 1 .lirechar, .next 1, .call 2 .lirechar, .type 104, .type 105, .poll, .next 1, .poll,
    .next 1, .poll, .next 1, .next 2, .next 2, .next 2]

theorem reads_exact_twoReaders : ∃ s, run step init twoReaders = some s ∧
    s.returned = [(1, 104)] ∧ (s.threads 2).pc = .took 105 ∧
    ∃ inHand buffered, inHand.length ≤ 1 ∧ buffered.length ≤ 1 ∧
      s.typed = s.returned.map Prod.snd ++ inHand ++ buffered ++ s.keyboard :=
  ⟨_, rfl, by decide, by decide, reads_exact twoReaders _ rfl (by decide)⟩

/-- A character that is `EOF`: the next poll overwrites it, and the second call gets `EOF`
for the character that the first one got. -/
example : (run step init
    [.type EOF, .type 97, .poll, .poll, .call 1 .lirechar, .next 1, .next 1, .next 1,
      .call 1 .lirechar, .next 1, .next 1, .next 1]).map (·.returned) =
    some [(1, 97), (1, EOF)] := by decide

/-- **Writing.** In every run the display shows the characters of the calls of
`ecrirechar` that have returned, in their order, and at most one more, whose call is under
way; a call returns only when its character has been shown. -/
theorem writes_exact (as : List Act) (s : Kernel) (hrun : run step init as = some s) :
    ∃ current, current.length ≤ 1 ∧ s.display = s.written.map Prod.snd ++ current ∧
      s.written.length ≤ s.numConsoleCharsWritten ∧
      s.numConsoleCharsWritten ≤ s.display.length := by
  have h := (inv_run hrun).write
  have hcount := h.count
  cases hstate : (s.lock .write).state with
  | none =>
      obtain ⟨⟨-, -, hints⟩, hdisplay⟩ := h.free hstate
      refine ⟨[], by simp, by rw [hdisplay, List.append_nil], ?_, by omega⟩
      rw [hdisplay, List.length_map] at hcount
      omega
  | some k =>
      obtain ⟨hphase, hdisplay⟩ := h.held k hstate
      refine ⟨_, length_shown (s.threads k), hdisplay, ?_, by omega⟩
      have hints : s.writeInts ≤ (s.threads k).shown.length := by
        unfold WritePhase at hphase
        split at hphase
        iterate 3 exact Nat.le_trans (Nat.le_of_eq hphase.2.2.2) (Nat.zero_le _)
        · rename_i car hpc
          rcases hphase.2 with ⟨-, -, hone⟩ | ⟨-, -, hzero⟩
          · simp [Thread.shown, hpc, hone]
          · omega
        · rename_i car hpc
          rcases hphase with ⟨-, -, -, hone⟩ | ⟨-, -, -, hzero⟩
          · simp [Thread.shown, hpc, hone]
          · omega
        · exact hphase.elim
      rw [hdisplay, List.length_append, List.length_map] at hcount
      omega

/-- Two writers: the second one waits until the character of the first has been shown. -/
def twoWriters : List Act :=
  [.call 1 (.ecrirechar 104), .next 1, .call 2 (.ecrirechar 105), .next 1, .writeDone, .next 1,
    .next 1, .next 2, .next 2]

theorem writes_exact_twoWriters : ∃ s, run step init twoWriters = some s ∧
    s.display = [104, 105] ∧
    ∃ current, current.length ≤ 1 ∧ s.display = s.written.map Prod.snd ++ current ∧
      s.written.length ≤ s.numConsoleCharsWritten ∧
      s.numConsoleCharsWritten ≤ s.display.length :=
  ⟨_, rfl, by decide, writes_exact twoWriters _ rfl⟩

/-- **Nothing gets stuck.** In every run a thread that is awake inside a call can go on:
no `ASSERT` fails, neither that of `Release` nor that of `PutChar`. When nothing can go on,
nobody is in `ecrirechar`, and whoever is in `lirechar` waits for the keyboard: all that
was typed has been returned. -/
theorem nothing_stuck (as : List Act) (s : Kernel) (hrun : run step init as = some s) :
    (∀ k, (s.threads k).blocked = false → (s.threads k).pc ≠ .out →
      ∃ s', s.step (.next k) = some s') ∧
    (s.Quiet → (∀ k car, (s.threads k).pc.call ≠ some (.ecrirechar car)) ∧
      (EOF ∉ s.typed → ∀ k, (s.threads k).pc.call = some .lirechar →
        s.returned.map Prod.snd = s.typed)) := by
  have h := inv_run hrun
  have hasleep (hq : s.Quiet) {j : ℕ} {side : Side}
      (hj : (s.threads j).pc.call.map Call.side = some side) : (s.threads j).blocked = true := by
    apply hq.threads j
    intro hout
    rw [hout] at hj
    cases hj
  constructor
  · intro k hblocked hin
    obtain ⟨s', hs', -⟩ := h.next hblocked hin
    exact ⟨s', by rw [Kernel.step, hblocked, if_neg (by decide), hs']⟩
  · intro hq
    constructor
    · intro k car hcall
      obtain ⟨j, hstate, hj⟩ := h.locks.exists_holder hcall
      have hone := writePhase_asleep (h.write.held j hstate).1 (hasleep hq hj)
      rw [hq.writeInts] at hone
      cases hone
    · intro htyped k hcall
      obtain ⟨j, hstate, hj⟩ := h.locks.exists_holder hcall
      obtain ⟨hphase, hchars⟩ := (h.read htyped).held j hstate
      obtain ⟨hin, hhand⟩ := readPhase_asleep hphase (hasleep hq hj)
      rw [Chars, hhand, if_pos hin, hq.poll hin] at hchars
      simpa using hchars.symm

theorem nothing_stuck_twoReaders : ∃ s, run step init twoReaders = some s ∧
    (∃ s', s.step (.next 2) = some s') ∧
    (s.Quiet → (∀ k car, (s.threads k).pc.call ≠ some (.ecrirechar car)) ∧
      (EOF ∉ s.typed → ∀ k, (s.threads k).pc.call = some .lirechar →
        s.returned.map Prod.snd = s.typed)) := by
  obtain ⟨hgo, hquiet⟩ := nothing_stuck twoReaders _ rfl
  exact ⟨_, rfl, hgo 2 (by decide) (by decide), hquiet⟩

end Kernel

end OsAssignments.SyncConsole
