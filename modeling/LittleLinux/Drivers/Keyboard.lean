import LittleLinux.Lib.Ring
import LittleLinux.Lib.Run

/-!
# The keyboard ring

`keyboard.c` passes characters from the keyboard interrupt to the reader through
`keyboard_buffer`. The interrupt handler puts a character with `putchar_to_buffer`; the reader
takes one with `getchar_from_buffer`, which it executes as three accesses to the shared
variables: the emptiness test, the read of the slot at `kbuf_tail`, and the store of the new
`kbuf_tail`. An interrupt may come between any two of them. A schedule is the list of what
happens, one interrupt or one access of the reader at a time.

The state carries two logs, which no step reads: the characters `putchar_to_buffer` stored,
and the characters `getchar_from_buffer` returned.
-/

namespace LittleLinux

/-- `KBUF_SIZE`. -/
def kbufSize : ℤ := 256

/-- Where the reader stands in `getchar_from_buffer`. -/
inductive Reader
  /-- Outside the function. -/
  | idle
  /-- At the loop's test `kbuf_head == kbuf_tail`. -/
  | test
  /-- About to read `keyboard_buffer[kbuf_tail]`. -/
  | read
  /-- About to store `kbuf_tail` and return the character. -/
  | store (c : UInt8)
deriving DecidableEq

/-- The shared variables, the reader, and the two logs. -/
structure Keyboard where
  kbufHead : ℤ
  kbufTail : ℤ
  keyboardBuffer : ℕ → UInt8
  reader : Reader
  accepted : List UInt8
  returned : List UInt8

/-- The state at boot. -/
def Keyboard.boot : Keyboard := ⟨0, 0, fun _ => 0, .idle, [], []⟩

/-- `putchar_to_buffer`. -/
def putcharToBuffer (s : Keyboard) (c : UInt8) : Keyboard :=
  let next := (s.kbufHead + 1).tmod kbufSize
  if next ≠ s.kbufTail then
    { s with
      keyboardBuffer := Function.update s.keyboardBuffer s.kbufHead.toNat c
      kbufHead := next
      accepted := s.accepted ++ [c] }
  else s

/-- The reader's next access in `getchar_from_buffer`, or its next call of it. -/
def getcharStep (s : Keyboard) : Keyboard :=
  match s.reader with
  | .idle => { s with reader := .test }
  | .test => if s.kbufHead = s.kbufTail then s else { s with reader := .read }
  | .read => { s with reader := .store (s.keyboardBuffer s.kbufTail.toNat) }
  | .store c =>
    { s with
      kbufTail := (s.kbufTail + 1).tmod kbufSize
      reader := .idle
      returned := s.returned ++ [c] }

/-- What can happen next: an interrupt with a character, or a step of the reader. -/
inductive KeyEvent
  | key (c : UInt8)
  | reader
deriving DecidableEq

/-- One event. -/
def keyboardStep (s : Keyboard) : KeyEvent → Keyboard
  | .key c => putcharToBuffer s c
  | .reader => getcharStep s

/-- The state after a schedule, from boot. -/
def keyboardRun (events : List KeyEvent) : Keyboard := events.foldl keyboardStep Keyboard.boot

/-- The number of characters stored and not returned yet. -/
def Keyboard.pending (s : Keyboard) : ℕ := s.accepted.length - s.returned.length

/-! ### The invariant -/

/-- The character the reader holds, or is about to read, is the oldest pending one. -/
def ReaderInv (s : Keyboard) : Prop :=
  match s.reader with
  | .idle => True
  | .test => True
  | .read => s.returned.length < s.accepted.length
  | .store c => s.accepted[s.returned.length]? = some c

/-- The indices are the lengths of the logs modulo the size, the returned characters are the
first accepted ones, and the buffer holds the others. -/
structure KeyboardInv (s : Keyboard) : Prop where
  head : s.kbufHead = (s.accepted.length % 256 : ℕ)
  tail : s.kbufTail = (s.returned.length % 256 : ℕ)
  order : s.returned <+: s.accepted
  room : s.accepted.length ≤ s.returned.length + 255
  holds : RingHolds 256 s.keyboardBuffer s.accepted s.returned.length
  reader : ReaderInv s

theorem KeyboardInv.boot : KeyboardInv Keyboard.boot :=
  ⟨rfl, rfl, List.prefix_rfl, by simp [Keyboard.boot], RingHolds.nil, trivial⟩

/-- Stepping an index is counting on. -/
theorem tmod_succ_mod (n : ℕ) :
    ((n % 256 : ℕ) + 1 : ℤ).tmod kbufSize = ((n + 1) % 256 : ℕ) := by
  rw [kbufSize, Int.tmod_eq_emod_of_nonneg (by omega)]
  omega

variable {s : Keyboard}

/-- The full test of `putchar_to_buffer` finds exactly the full ring. -/
theorem KeyboardInv.next_ne_iff (h : KeyboardInv s) :
    (s.kbufHead + 1).tmod kbufSize ≠ s.kbufTail ↔ s.accepted.length < s.returned.length + 255 := by
  have hle := h.order.length_le
  have hroom := h.room
  rw [h.head, h.tail, tmod_succ_mod]
  omega

/-- The emptiness test of `getchar_from_buffer` finds exactly the empty ring. -/
theorem KeyboardInv.head_eq_tail_iff (h : KeyboardInv s) :
    s.kbufHead = s.kbufTail ↔ s.returned.length = s.accepted.length := by
  have hle := h.order.length_le
  have hroom := h.room
  rw [h.head, h.tail]
  omega

theorem putcharToBuffer_of_full (h : (s.kbufHead + 1).tmod kbufSize = s.kbufTail) (c : UInt8) :
    putcharToBuffer s c = s :=
  if_neg (not_not.2 h)

theorem putcharToBuffer_of_room (h : (s.kbufHead + 1).tmod kbufSize ≠ s.kbufTail) (c : UInt8) :
    putcharToBuffer s c =
      { s with
        keyboardBuffer := Function.update s.keyboardBuffer s.kbufHead.toNat c
        kbufHead := (s.kbufHead + 1).tmod kbufSize
        accepted := s.accepted ++ [c] } :=
  if_pos h

/-- An interrupt keeps the invariant, wherever the reader stands. -/
theorem KeyboardInv.putcharToBuffer (h : KeyboardInv s) (c : UInt8) :
    KeyboardInv (putcharToBuffer s c) := by
  by_cases hnext : (s.kbufHead + 1).tmod kbufSize = s.kbufTail
  · rwa [putcharToBuffer_of_full hnext]
  have hroom := h.next_ne_iff.1 hnext
  rw [putcharToBuffer_of_room hnext]
  constructor
  case head =>
    rw [h.head, tmod_succ_mod]
    simp
  case tail => exact h.tail
  case order => exact h.order.trans (List.prefix_append _ _)
  case room =>
    simp only [List.length_append, List.length_singleton]
    omega
  case holds =>
    rw [h.head, Int.toNat_natCast]
    exact h.holds.push (by omega) c
  case reader =>
    -- what the reader holds is not the new character
    have hr := h.reader
    unfold ReaderInv at hr ⊢
    cases hpc : s.reader with
    | idle => trivial
    | test => trivial
    | read =>
      simp only [hpc, List.length_append] at hr ⊢
      omega
    | store d =>
      simp only [hpc] at hr ⊢
      have hlt := (List.getElem?_eq_some_iff.1 hr).1
      rw [List.getElem?_append_left hlt, hr]

/-- A step of the reader keeps the invariant. -/
theorem KeyboardInv.getcharStep (h : KeyboardInv s) : KeyboardInv (getcharStep s) := by
  have hr := h.reader
  unfold ReaderInv at hr
  unfold LittleLinux.getcharStep
  -- one case for each program point of `getchar`; an interrupt may come between any two
  cases hpc : s.reader with
  | idle => exact ⟨h.head, h.tail, h.order, h.room, h.holds, trivial⟩
  | test =>
    dsimp only
    split_ifs with hempty
    · exact h
    · have hne := mt h.head_eq_tail_iff.2 hempty
      have hle := h.order.length_le
      exact ⟨h.head, h.tail, h.order, h.room, h.holds, by simp only [ReaderInv]; omega⟩
  | read =>
    simp only [hpc] at hr
    -- the slot at the tail holds the oldest character not yet returned
    have hread : s.keyboardBuffer s.kbufTail.toNat = s.accepted[s.returned.length] := by
      rw [h.tail, Int.toNat_natCast]
      exact h.holds _ hr le_rfl
    exact ⟨h.head, h.tail, h.order, h.room, h.holds, by simp [ReaderInv, hread, hr]⟩
  | store c =>
    simp only [hpc] at hr
    obtain ⟨hlt, hc⟩ := List.getElem?_eq_some_iff.1 hr
    constructor
    case head => exact h.head
    case tail =>
      dsimp only
      rw [h.tail, tmod_succ_mod]
      simp
    case order =>
      dsimp only
      rw [List.prefix_iff_eq_take.1 h.order, ← hc]
      simp only [List.take_append_getElem, List.take_prefix]
    case room =>
      have := h.room
      simp only [List.length_append, List.length_singleton]
      omega
    case holds =>
      simpa using h.holds.pop
    case reader => trivial

theorem KeyboardInv.step (s : Keyboard) (e : KeyEvent) (h : KeyboardInv s) :
    KeyboardInv (keyboardStep s e) := by
  cases e with
  | key c => exact h.putcharToBuffer c
  | reader => exact h.getcharStep

/-- The invariant holds after every schedule. -/
theorem keyboardInv_run (events : List KeyEvent) : KeyboardInv (keyboardRun events) :=
  Along.invariant (fun s e hs _ => KeyboardInv.step s e hs) KeyboardInv.boot
    (Along.of_forall (fun _ _ => trivial) _ events)

/-! ### Nothing is lost -/

/-- The steps the reader has before it, at most, to its next return once a character is
there. -/
def Reader.left : Reader → ℕ
  | .idle => 4
  | .test => 3
  | .read => 2
  | .store _ => 1

theorem putcharToBuffer_reader (s : Keyboard) (c : UInt8) :
    (putcharToBuffer s c).reader = s.reader ∧ (putcharToBuffer s c).returned = s.returned := by
  unfold putcharToBuffer
  dsimp only
  split_ifs
  · exact ⟨rfl, rfl⟩
  · exact ⟨rfl, rfl⟩

/-- No event takes back an accepted character. -/
theorem accepted_prefix_step (s : Keyboard) (e : KeyEvent) :
    s.accepted <+: (keyboardStep s e).accepted := by
  cases e with
  | key c =>
    simp only [keyboardStep, putcharToBuffer]
    split_ifs
    · exact List.prefix_append _ _
    · exact List.prefix_rfl
  | reader =>
    simp only [keyboardStep, getcharStep]
    split
    case h_2 => split_ifs <;> exact List.prefix_rfl
    all_goals exact List.prefix_rfl

/-- One step of the reader brings its return one step nearer, as long as one of the first `n`
accepted characters is pending. -/
theorem KeyboardInv.getcharStep_progress (h : KeyboardInv s) {n k : ℕ} (hn : n ≤ s.accepted.length)
    (hk : 4 * n + s.reader.left ≤ (k + 1) + 4 * s.returned.length + 4) :
    4 * n + (LittleLinux.getcharStep s).reader.left ≤
      k + 4 * (LittleLinux.getcharStep s).returned.length + 4 := by
  unfold LittleLinux.getcharStep
  cases hpc : s.reader with
  | idle =>
    simp only [hpc, Reader.left] at hk ⊢
    omega
  | test =>
    simp only [hpc, Reader.left] at hk ⊢
    split_ifs with hempty
    · -- the ring is empty: all of them have been returned
      have := h.head_eq_tail_iff.1 hempty
      simp only [hpc]
      omega
    · dsimp only
      omega
  | read =>
    simp only [hpc, Reader.left] at hk ⊢
    omega
  | store c =>
    simp only [hpc, Reader.left, List.length_append, List.length_singleton] at hk ⊢
    omega

/-- Whatever interrupts come in between, four steps of the reader for each pending character
return them all. -/
theorem KeyboardInv.returned_of_count {n : ℕ} (events : List KeyEvent) (h : KeyboardInv s)
    (hn : n ≤ s.accepted.length)
    (hk : 4 * n + s.reader.left ≤ events.count .reader + 4 * s.returned.length + 4) :
    n ≤ (events.foldl keyboardStep s).returned.length := by
  induction events generalizing s with
  | nil =>
    have hpos : 1 ≤ s.reader.left := by cases s.reader <;> simp [Reader.left]
    simp only [List.count_nil, List.foldl_nil] at hk ⊢
    omega
  | cons e events ih =>
    have hn' := hn.trans (accepted_prefix_step s e).length_le
    refine ih (h.step s e) hn' ?_
    cases e with
    | key c =>
      simp only [keyboardStep]
      rw [(putcharToBuffer_reader s c).1, (putcharToBuffer_reader s c).2]
      simpa using hk
    | reader =>
      rw [List.count_cons_self] at hk
      exact h.getcharStep_progress hn hk

/-! ### The ring is a FIFO queue -/

/-- **The keyboard ring is a lossless queue of 255 characters.** After every schedule of
interrupts and reader steps the indices are in range, the characters returned so far are the
first of the accepted ones, in order, and the buffer holds every other accepted character.
Every character pending now is returned, in order, once the reader has taken four steps for
each, whatever interrupts come in between. A further character is refused only when 255 are
pending, and is stored otherwise. -/
theorem keyboardRing_fifo (events : List KeyEvent) :
    let s := keyboardRun events
    (0 ≤ s.kbufHead ∧ s.kbufHead ≤ 255) ∧ (0 ≤ s.kbufTail ∧ s.kbufTail ≤ 255) ∧
      s.returned <+: s.accepted ∧
      (∀ (i : ℕ) (h : i < s.accepted.length), s.returned.length ≤ i →
        s.keyboardBuffer (i % 256) = s.accepted[i]) ∧
      (∀ more : List KeyEvent, 4 * s.pending ≤ more.count .reader →
        s.accepted <+: (keyboardRun (events ++ more)).returned) ∧
      ∀ c : UInt8, (keyboardStep s (.key c)).accepted = s.accepted ++ [c] ∨
        (keyboardStep s (.key c) = s ∧ s.pending = 255) := by
  intro s
  have h : KeyboardInv s := keyboardInv_run events
  have hle := h.order.length_le
  refine ⟨?_, ?_, h.order, h.holds, fun more hmore => ?_, fun c => ?_⟩
  · rw [h.head]
    omega
  · rw [h.tail]
    omega
  · have hrun : keyboardRun (events ++ more) = more.foldl keyboardStep s := List.foldl_append
    have hfinal := keyboardInv_run (events ++ more)
    rw [hrun] at hfinal ⊢
    have hlen : s.accepted.length ≤ (more.foldl keyboardStep s).returned.length := by
      refine h.returned_of_count more le_rfl ?_
      have : s.reader.left ≤ 4 := by cases s.reader <;> simp [Reader.left]
      unfold Keyboard.pending at hmore
      omega
    -- both logs of the start and of the end are prefixes of the last accepted log
    have hacc : s.accepted <+: (more.foldl keyboardStep s).accepted := by
      refine Along.invariant (C := fun _ _ => True) (I := fun t => s.accepted <+: t.accepted)
        (fun t e ht _ => ht.trans (accepted_prefix_step t e)) List.prefix_rfl
        (Along.of_forall (fun _ _ => trivial) _ more)
    exact List.prefix_of_prefix_length_le hacc hfinal.order hlen
  · by_cases hnext : (s.kbufHead + 1).tmod kbufSize = s.kbufTail
    · refine Or.inr ⟨putcharToBuffer_of_full hnext c, ?_⟩
      have := mt h.next_ne_iff.2 (not_not.2 hnext)
      have hroom := h.room
      unfold Keyboard.pending
      omega
    · refine Or.inl ?_
      simp only [keyboardStep, putcharToBuffer_of_room hnext]

/-- A key between the reader's test and its read does not disturb the character it reads. -/
example : (keyboardRun [.key 97, .reader, .reader, .key 98, .reader, .key 99, .reader]).returned
    = [97] := by
  decide

end LittleLinux
