import LittleLinux.Drivers.Keyboard

/-!
# Scan codes

The keyboard interrupt of `keyboard.c` takes one byte from the data port and puts it at
`SCBufferHead`. When the status port has no further byte, the bytes in `scanCodeBuffer` are one
scan code: its last two bytes, with the break bit taken out, index `scanToKeycode`.

Neither the buffer of six bytes nor the table of 512 entries is checked. Accesses are given with
the offset or the index they use, so that being in bounds is a property of a run, and what lies
past an array is part of the same function here. `initKBD` itself indexes the table with the
two-byte codes of the extended keys, `0xe037` and others, so it leaves the table in every run; the
interrupts stay in bounds exactly when the codes that arrive have at most six bytes, and 0 or 1 in
the second to last.
-/

namespace LittleLinux

/-- `enum KEY_CODE`. The first one has the value 0, which the table holds at boot. -/
inductive KeyCode
  | keyEsc | keyF1 | keyF2 | keyF3 | keyF4 | keyF5 | keyF6 | keyF7 | keyF8 | keyF9 | keyF10
  | keyF11 | keyF12 | keyPrscr | keyIns | keyDel | keyGrave | key1 | key2 | key3 | key4 | key5
  | key6 | key7 | key8 | key9 | key0 | keyMinus | keyEqu | keyBckspc | keyTab | keyQ | keyW
  | keyE | keyR | keyT | keyY | keyU | keyI | keyO | keyP | keyLbracket | keyRbracket
  | keyBslash | keyCaps | keyA | keyS | keyD | keyF | keyG | keyH | keyJ | keyK | keyL
  | keySmicolon | keyQuote | keyEnter | keyLshift | keyZ | keyX | keyC | keyV | keyB | keyN
  | keyM | keyComma | keyFstop | keyFslash | keyRshift | keyLctrl | keySuper | keyLalt
  | keySpace | keyRalt | keyRctrl | keyMenu | keyLeft | keyHome | keyUp | keyPgup | keyDown
  | keyPgdown | keyRight | keyEnd
deriving DecidableEq

/-- `struct keyData`. -/
structure KeyData where
  isPressed : Bool
  ascii : UInt8
  altAscii : UInt8

/-- The variables of the driver, with `SCBufferHead` as an offset in `scanCodeBuffer`. -/
structure Kbd where
  capsLock : Bool
  keys : KeyCode → KeyData
  scanToKeycode : ℕ → KeyCode
  scanCodeBuffer : ℕ → UInt8
  scBufferHead : ℕ
  ring : Keyboard

/-- The variables at boot. -/
def Kbd.boot : Kbd :=
  ⟨false, fun _ => ⟨false, 0, 0⟩, fun _ => .keyEsc, fun _ => 0, 0, Keyboard.boot⟩

/-! ### Setting up -/

/-- The arguments of a call of `registerKey`. -/
structure Registration where
  keyCode : KeyCode
  scanCode : ℕ
  ascii : UInt8
  altAscii : UInt8
deriving DecidableEq

/-- `registerKey`. -/
def registerKey (s : Kbd) (r : Registration) : Kbd :=
  { s with
    scanToKeycode := Function.update s.scanToKeycode r.scanCode r.keyCode
    keys := Function.update s.keys r.keyCode ⟨false, r.ascii, r.altAscii⟩ }

/-- The calls of `registerKey` in `initKBD`, in order. -/
def registrations : List Registration :=
  [⟨.keyEsc, 0x1, 0, 0⟩, ⟨.keyF1, 0x3b, 0, 0⟩, ⟨.keyF2, 0x3c, 0, 0⟩, ⟨.keyF3, 0x3d, 0, 0⟩,
    ⟨.keyF4, 0x3e, 0, 0⟩, ⟨.keyF5, 0x3f, 0, 0⟩, ⟨.keyF6, 0x40, 0, 0⟩, ⟨.keyF7, 0x41, 0, 0⟩,
    ⟨.keyF8, 0x42, 0, 0⟩, ⟨.keyF9, 0x43, 0, 0⟩, ⟨.keyF10, 0x44, 0, 0⟩, ⟨.keyF11, 0x57, 0, 0⟩,
    ⟨.keyF12, 0x58, 0, 0⟩, ⟨.keyPrscr, 0xe037, 0, 0⟩, ⟨.keyIns, 0xe052, 0, 0⟩,
    ⟨.keyDel, 0xe053, 0, 0⟩, ⟨.keyGrave, 0x29, 96, 126⟩, ⟨.key1, 0x2, 49, 33⟩,
    ⟨.key2, 0x3, 50, 64⟩, ⟨.key3, 0x4, 51, 35⟩, ⟨.key4, 0x5, 52, 36⟩, ⟨.key5, 0x6, 53, 37⟩,
    ⟨.key6, 0x7, 54, 94⟩, ⟨.key7, 0x8, 55, 38⟩, ⟨.key8, 0x9, 56, 42⟩, ⟨.key9, 0xa, 57, 40⟩,
    ⟨.key0, 0xb, 48, 41⟩, ⟨.keyMinus, 0xc, 45, 95⟩, ⟨.keyEqu, 0xd, 61, 43⟩,
    ⟨.keyBckspc, 0xe, 8, 0⟩, ⟨.keyTab, 0xf, 9, 0⟩, ⟨.keyQ, 0x10, 113, 81⟩, ⟨.keyW, 0x11, 119, 87⟩,
    ⟨.keyE, 0x12, 101, 69⟩, ⟨.keyR, 0x13, 114, 82⟩, ⟨.keyT, 0x14, 116, 84⟩,
    ⟨.keyY, 0x15, 121, 89⟩, ⟨.keyU, 0x16, 117, 85⟩, ⟨.keyI, 0x17, 105, 73⟩,
    ⟨.keyO, 0x18, 111, 79⟩, ⟨.keyP, 0x19, 112, 80⟩, ⟨.keyLbracket, 0x1a, 91, 123⟩,
    ⟨.keyRbracket, 0x1b, 93, 125⟩, ⟨.keyBslash, 0x2b, 92, 124⟩, ⟨.keyCaps, 0x3a, 0, 0⟩,
    ⟨.keyA, 0x1e, 97, 65⟩, ⟨.keyS, 0x1f, 115, 83⟩, ⟨.keyD, 0x20, 100, 68⟩, ⟨.keyF, 0x21, 102, 70⟩,
    ⟨.keyG, 0x22, 103, 71⟩, ⟨.keyH, 0x23, 104, 72⟩, ⟨.keyJ, 0x24, 106, 74⟩,
    ⟨.keyK, 0x25, 107, 75⟩, ⟨.keyL, 0x26, 108, 76⟩, ⟨.keySmicolon, 0x27, 59, 58⟩,
    ⟨.keyBslash, 0x28, 39, 34⟩, ⟨.keyEnter, 0x1c, 10, 0⟩, ⟨.keyLshift, 0x2a, 0, 0⟩,
    ⟨.keyZ, 0x2c, 122, 90⟩, ⟨.keyX, 0x2d, 120, 88⟩, ⟨.keyC, 0x2e, 99, 67⟩, ⟨.keyV, 0x2f, 118, 86⟩,
    ⟨.keyB, 0x30, 98, 66⟩, ⟨.keyN, 0x31, 110, 78⟩, ⟨.keyM, 0x32, 109, 77⟩,
    ⟨.keyComma, 0x33, 44, 60⟩, ⟨.keyFstop, 0x34, 46, 62⟩, ⟨.keyFslash, 0x35, 47, 63⟩,
    ⟨.keyRshift, 0x36, 0, 0⟩, ⟨.keyLctrl, 0x1d, 0, 0⟩, ⟨.keySuper, 0xe05b, 0, 0⟩,
    ⟨.keyLalt, 0x38, 0, 0⟩, ⟨.keySpace, 0x39, 32, 0⟩, ⟨.keyRalt, 0xe038, 0, 0⟩,
    ⟨.keyRctrl, 0xe01d, 0, 0⟩, ⟨.keyMenu, 0xe05d, 0, 0⟩, ⟨.keyLeft, 0xe04b, 0, 0⟩,
    ⟨.keyHome, 0xe047, 0, 0⟩, ⟨.keyUp, 0xe048, 0, 0⟩, ⟨.keyPgup, 0xe049, 0, 0⟩,
    ⟨.keyDown, 0xe050, 0, 0⟩, ⟨.keyPgdown, 0xe051, 0, 0⟩, ⟨.keyRight, 0xe04d, 0, 0⟩,
    ⟨.keyEnd, 0xe04f, 0, 0⟩]

/-- `initKBD`. -/
def initKbd : Kbd := registrations.foldl registerKey Kbd.boot

/-! ### Interrupts -/

/-- What an interrupt reads: the byte of the data port, and the status port after it. -/
structure KbdEvent where
  data : UInt8
  status : UInt8

/-- There is no further byte. -/
def KbdEvent.Complete (e : KbdEvent) : Prop := e.status &&& 1 = 0

instance (e : KbdEvent) : Decidable e.Complete := inferInstanceAs (Decidable (_ = _))

/-- The bytes of a scan code as an `unsigned short`. -/
def codeOf (bytes : List UInt8) : ℕ :=
  bytes.foldl (fun code b => (code * 256 + b.toNat) % 2 ^ 16) 0

/-- The index for a code: without the break bit. -/
def scanIndex (code : ℕ) : ℕ := if code &&& 0x80 ≠ 0 then code &&& 0xff7f else code

namespace Kbd

/-- `isDown`. -/
def isDown (s : Kbd) (code : KeyCode) : Bool := (s.keys code).isPressed

/-- `getASCII`. -/
def getASCII (s : Kbd) (code : KeyCode) : UInt8 :=
  if s.isDown .keyLshift || s.isDown .keyRshift then
    let ch := (s.keys code).altAscii
    if s.capsLock && (65 ≤ ch && ch ≤ 90) then (s.keys code).ascii else ch
  else
    let ch := (s.keys code).ascii
    if s.capsLock && (97 ≤ ch && ch ≤ 122) then (s.keys code).altAscii else ch

/-- The store of `readScanCode`. -/
def readScanCode (s : Kbd) (data : UInt8) : Kbd :=
  { s with
    scanCodeBuffer := Function.update s.scanCodeBuffer s.scBufferHead data
    scBufferHead := s.scBufferHead + 1 }

/-- The code in the buffer. -/
def code (s : Kbd) : ℕ := codeOf ((List.range s.scBufferHead).map s.scanCodeBuffer)

/-- Set `isPressed`. -/
def setPressed (s : Kbd) (keycode : KeyCode) (b : Bool) : Kbd :=
  { s with keys := Function.update s.keys keycode { s.keys keycode with isPressed := b } }

/-- Act on the code in the buffer. -/
def act (s : Kbd) : Kbd :=
  let keycode := s.scanToKeycode (scanIndex s.code)
  if s.code &&& 0x80 ≠ 0 then
    let s := s.setPressed keycode false
    if keycode = .keyCaps then { s with capsLock := !s.capsLock } else s
  else
    let s := s.setPressed keycode true
    let ch := s.getASCII keycode
    if ch ≠ 0 then { s with ring := putcharToBuffer s.ring ch } else s

end Kbd

/-- `KBDinterrupt`. -/
def kbdInterrupt (s : Kbd) (e : KbdEvent) : Kbd :=
  let s := s.readScanCode e.data
  if e.Complete then { s.act with scBufferHead := 0 } else s

/-! ### Accesses -/

/-- A store through `SCBufferHead`, or a use of `scanToKeycode`. -/
inductive KbdAccess
  | store (offset : ℕ)
  | index (i : ℕ)

/-- The access is inside its array. -/
def KbdAccess.InBounds : KbdAccess → Prop
  | .store offset => offset < 6
  | .index i => i < 512

/-- The accesses of `initKBD`. -/
def initAccesses : List KbdAccess := registrations.map fun r => .index r.scanCode

/-- The accesses of an interrupt. -/
def kbdAccesses (s : Kbd) (e : KbdEvent) : List KbdAccess :=
  .store s.scBufferHead ::
    if e.Complete then [.index (scanIndex (s.readScanCode e.data).code)] else []

/-- The accesses of a sequence of interrupts. -/
def interruptAccesses : Kbd → List KbdEvent → List KbdAccess
  | _, [] => []
  | s, e :: es => kbdAccesses s e ++ interruptAccesses (kbdInterrupt s e) es

/-- Decoding stays inside the tables, and the keys are found under their scan codes. -/
structure DecodingSafe (events : List KbdEvent) : Prop where
  inBounds : ∀ a ∈ initAccesses ++ interruptAccesses initKbd events, a.InBounds
  found : ∀ r ∈ registrations,
    (events.foldl kbdInterrupt initKbd).scanToKeycode r.scanCode = r.keyCode

/-! ### The codes that arrive -/

/-- The scan codes that a sequence of interrupts completes, after `pending` bytes of the first
one, and the bytes that are left over. -/
def bursts : List UInt8 → List KbdEvent → List (List UInt8) × List UInt8
  | pending, [] => ([], pending)
  | pending, e :: es =>
    if e.Complete then
      ((pending ++ [e.data]) :: (bursts [] es).1, (bursts [] es).2)
    else bursts (pending ++ [e.data]) es

/-- The byte before the last one, if there is one, is 0 or 1. -/
def ShortCode (bytes : List UInt8) : Prop := ∀ init a b, bytes = init ++ [a, b] → a ≤ 1

/-- Every code, finished or not, fits in the buffer, and every finished one is short. -/
structure CodesFit (pending : List UInt8) (events : List KbdEvent) : Prop where
  codes : ∀ code ∈ (bursts pending events).1, code.length ≤ 6 ∧ ShortCode code
  rest : (bursts pending events).2.length ≤ 6

section Codes

variable {pending : List UInt8} {e : KbdEvent} {es : List KbdEvent}

theorem codesFit_nil_iff : CodesFit pending [] ↔ pending.length ≤ 6 :=
  ⟨fun h => h.rest, fun h => ⟨fun _ hcode => absurd hcode (by simp [bursts]), h⟩⟩

theorem codesFit_cons_of_complete (h : e.Complete) :
    CodesFit pending (e :: es) ↔ (pending.length < 6 ∧ ShortCode (pending ++ [e.data])) ∧
      CodesFit [] es := by
  have hbursts : bursts pending (e :: es) =
      ((pending ++ [e.data]) :: (bursts [] es).1, (bursts [] es).2) := by
    rw [bursts, if_pos h]
  constructor
  · intro hfit
    have hcodes := hfit.codes
    have hrest := hfit.rest
    rw [hbursts] at hcodes hrest
    obtain ⟨hlen, hshort⟩ := hcodes _ List.mem_cons_self
    rw [List.length_append, List.length_singleton] at hlen
    exact ⟨⟨hlen, hshort⟩, fun code hcode => hcodes code (List.mem_cons_of_mem _ hcode), hrest⟩
  · rintro ⟨⟨hlen, hshort⟩, hfit⟩
    refine ⟨fun code hcode => ?_, ?_⟩ <;> rw [hbursts] at *
    · obtain rfl | hcode := List.mem_cons.1 hcode
      · exact ⟨by simpa using hlen, hshort⟩
      · exact hfit.codes code hcode
    · exact hfit.rest

theorem codesFit_cons_of_not_complete (h : ¬e.Complete) :
    CodesFit pending (e :: es) ↔ CodesFit (pending ++ [e.data]) es := by
  have hbursts : bursts pending (e :: es) = bursts (pending ++ [e.data]) es := by
    rw [bursts, if_neg h]
  constructor
  · rintro ⟨hcodes, hrest⟩
    rw [hbursts] at hcodes hrest
    exact ⟨hcodes, hrest⟩
  · rintro ⟨hcodes, hrest⟩
    rw [← hbursts] at hcodes hrest
    exact ⟨hcodes, hrest⟩

/-- Bytes past the end of the buffer stay there. -/
theorem CodesFit.length_le (h : CodesFit pending es) : pending.length ≤ 6 := by
  induction es generalizing pending with
  | nil => exact codesFit_nil_iff.1 h
  | cons e es ih =>
    by_cases hcomplete : e.Complete
    · exact ((codesFit_cons_of_complete hcomplete).1 h).1.1.le
    · have hlen := ih ((codesFit_cons_of_not_complete hcomplete).1 h)
      rw [List.length_append, List.length_singleton] at hlen
      omega

/-- Only the last two bytes of a code count. -/
theorem codeOf_append_pair (init : List UInt8) (a b : UInt8) :
    codeOf (init ++ [a, b]) = a.toNat * 256 + b.toNat := by
  have ha := a.toNat_lt
  have hb := b.toNat_lt
  rw [codeOf, List.foldl_append]
  simp only [List.foldl_cons, List.foldl_nil]
  omega

theorem codeOf_singleton (b : UInt8) : codeOf [b] = b.toNat := by
  have hb := b.toNat_lt
  simp only [codeOf, List.foldl_cons, List.foldl_nil]
  omega

/-- The break bit is in the last byte. -/
theorem scanIndex_div {code : ℕ} (h : code < 2 ^ 16) : scanIndex code / 256 = code / 256 := by
  unfold scanIndex
  split_ifs
  · rw [← Nat.shiftRight_eq_div_pow _ 8, ← Nat.shiftRight_eq_div_pow _ 8,
      Nat.shiftRight_and_distrib, Nat.shiftRight_eq_div_pow code 8]
    exact Nat.and_two_pow_sub_one_of_lt_two_pow (n := 8) (by omega)
  · rfl

/-- The index for a code is inside the table exactly when the code is short. -/
theorem scanIndex_lt_iff {bytes : List UInt8} (h : bytes ≠ []) :
    scanIndex (codeOf bytes) < 512 ↔ ShortCode bytes := by
  induction bytes using List.reverseRecOn with
  | nil => exact absurd rfl h
  | append_singleton init b =>
    have hb := b.toNat_lt
    induction init using List.reverseRecOn with
    | nil =>
      have hindex : scanIndex b.toNat / 256 = b.toNat / 256 := scanIndex_div (by omega)
      rw [List.nil_append, codeOf_singleton]
      refine iff_of_true (by omega) fun init a c hpair => ?_
      exact absurd (congrArg List.length hpair) (by simp)
    | append_singleton init a =>
      have ha := a.toNat_lt
      rw [List.append_assoc, List.singleton_append, codeOf_append_pair]
      have hindex : scanIndex (a.toNat * 256 + b.toNat) / 256 = (a.toNat * 256 + b.toNat) / 256 :=
        scanIndex_div (by omega)
      have hle : a ≤ 1 ↔ a.toNat ≤ 1 := UInt8.le_iff_toNat_le
      have hshort : ShortCode (init ++ [a, b]) ↔ a ≤ 1 := by
        constructor
        · exact fun hshort => hshort init a b rfl
        · intro hone init' a' b' hpair
          obtain ⟨-, htail⟩ := List.append_inj' hpair rfl
          rwa [← (List.cons.inj htail).1]
      rw [hshort, hle]
      omega

end Codes

/-! ### What the interrupts access -/

section Interrupts

variable {s : Kbd} {pending : List UInt8} {e : KbdEvent} {es : List KbdEvent}

/-- The bytes of an unfinished scan code are in the buffer. -/
structure Pending (s : Kbd) (pending : List UInt8) : Prop where
  head : s.scBufferHead = pending.length
  bytes : (List.range s.scBufferHead).map s.scanCodeBuffer = pending

theorem Pending.readScanCode (h : Pending s pending) (data : UInt8) :
    Pending (s.readScanCode data) (pending ++ [data]) := by
  refine ⟨by simp [Kbd.readScanCode, h.head], ?_⟩
  have hold : (List.range s.scBufferHead).map
      (Function.update s.scanCodeBuffer s.scBufferHead data) = pending := by
    rw [← h.bytes]
    refine List.map_congr_left fun i hi => ?_
    exact Function.update_of_ne (List.mem_range.1 hi).ne _ _
  simp only [Kbd.readScanCode, List.range_succ, List.map_append, hold, List.map_cons, List.map_nil,
    Function.update_self]

theorem Pending.nil (h : s.scBufferHead = 0) : Pending s [] :=
  ⟨h, by rw [h, List.range_zero, List.map_nil]⟩

theorem Pending.code_eq (h : Pending s pending) : s.code = codeOf pending := by
  rw [Kbd.code, h.bytes]

theorem kbdInterrupt_of_complete (h : e.Complete) : (kbdInterrupt s e).scBufferHead = 0 := by
  rw [kbdInterrupt, if_pos h]

theorem kbdInterrupt_of_not_complete (h : ¬e.Complete) :
    kbdInterrupt s e = s.readScanCode e.data :=
  if_neg h

/-- One interrupt stays in bounds when its byte has room, and the code that it finishes is
short. -/
theorem kbdAccesses_inBounds_iff (h : Pending s pending) :
    (∀ a ∈ kbdAccesses s e, a.InBounds) ↔
      pending.length < 6 ∧ (e.Complete → ShortCode (pending ++ [e.data])) := by
  have hcode := (h.readScanCode e.data).code_eq
  unfold kbdAccesses
  rw [hcode]
  by_cases hcomplete : e.Complete
  · have hindex : scanIndex (codeOf (pending ++ [e.data])) < 512 ↔ ShortCode (pending ++ [e.data]) :=
      scanIndex_lt_iff (by simp)
    simp [hcomplete, KbdAccess.InBounds, h.head, hindex]
  · simp [hcomplete, KbdAccess.InBounds, h.head]

/-- **When the interrupts stay in bounds.** All stores and indices of a sequence of interrupts are
inside the arrays exactly when the codes that arrive fit. -/
theorem interruptAccesses_inBounds_iff (h : Pending s pending) (hlen : pending.length ≤ 6) :
    (∀ a ∈ interruptAccesses s es, a.InBounds) ↔ CodesFit pending es := by
  induction es generalizing s pending with
  | nil => simp [interruptAccesses, codesFit_nil_iff, hlen]
  | cons e es ih =>
    rw [interruptAccesses, List.forall_mem_append, kbdAccesses_inBounds_iff h]
    by_cases hcomplete : e.Complete
    · have hnext := ih (Pending.nil (kbdInterrupt_of_complete (s := s) hcomplete)) (by simp)
      rw [hnext, codesFit_cons_of_complete hcomplete]
      simp [hcomplete]
    · rw [kbdInterrupt_of_not_complete hcomplete, codesFit_cons_of_not_complete hcomplete]
      have hread := h.readScanCode e.data
      constructor
      · rintro ⟨⟨hroom, -⟩, hrest⟩
        exact (ih hread (by simpa using hroom)).1 hrest
      · intro hfit
        have hroom := hfit.length_le
        rw [List.length_append, List.length_singleton] at hroom
        exact ⟨⟨hroom, fun hc => absurd hc hcomplete⟩, (ih hread (by simpa using hroom)).2 hfit⟩

theorem kbdInterrupt_scanToKeycode (s : Kbd) (e : KbdEvent) :
    (kbdInterrupt s e).scanToKeycode = s.scanToKeycode := by
  unfold kbdInterrupt
  dsimp only
  split_ifs
  · unfold Kbd.act
    dsimp only
    split_ifs <;> rfl
  · rfl

/-- Interrupts leave the table of scan codes alone. -/
theorem foldl_kbdInterrupt_scanToKeycode (s : Kbd) (es : List KbdEvent) :
    (es.foldl kbdInterrupt s).scanToKeycode = s.scanToKeycode := by
  induction es generalizing s with
  | nil => rfl
  | cons e es ih => rw [List.foldl_cons, ih, kbdInterrupt_scanToKeycode]

end Interrupts

/-! ### The whole run -/

/-- Every key is found under the scan code it was registered with. -/
theorem initKbd_found : ∀ r ∈ registrations, initKbd.scanToKeycode r.scanCode = r.keyCode := by
  decide +kernel

/-- **Decoding leaves its tables in every run.** `initKBD` registers the extended keys under
indices from `0xe01d` on, so no run is inside the 512 entries; the interrupts after it are in
bounds exactly when the codes that arrive fit; and no run loses a registration. -/
theorem decoding_never_safe (events : List KbdEvent) :
    ¬DecodingSafe events ∧
      ((∀ a ∈ interruptAccesses initKbd events, a.InBounds) ↔ CodesFit [] events) ∧
      ∀ r ∈ registrations,
        (events.foldl kbdInterrupt initKbd).scanToKeycode r.scanCode = r.keyCode := by
  refine ⟨fun h => ?_, ?_, fun r hr => ?_⟩
  · have hextended : KbdAccess.index 0xe037 ∈ initAccesses :=
      List.mem_map.2 ⟨⟨.keyPrscr, 0xe037, 0, 0⟩, by decide +kernel, rfl⟩
    have hbound := h.inBounds _ (List.mem_append_left _ hextended)
    exact absurd hbound (by simp [KbdAccess.InBounds])
  · exact interruptAccesses_inBounds_iff (Pending.nil rfl) (by simp)
  · rw [foldl_kbdInterrupt_scanToKeycode]
    exact initKbd_found r hr

/-- The run without interrupts is outside already. -/
theorem decoding_not_safe : ¬∀ events : List KbdEvent, DecodingSafe events := by
  intro h
  have hbound := (h []).inBounds (.index 0xe052) (List.mem_append_left _
    (List.mem_map.2 ⟨⟨.keyIns, 0xe052, 0, 0⟩, by decide +kernel, rfl⟩))
  exact absurd hbound (by simp [KbdAccess.InBounds])

end LittleLinux
