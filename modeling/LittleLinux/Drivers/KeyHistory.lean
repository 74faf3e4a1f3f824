import LittleLinux.Drivers.ScanCodes

/-!
# What the keyboard types

The keyboard sends a code of one byte when a key goes down, and the same code with its highest bit
set when the key comes up. The driver keeps a flag for each key and one for caps lock, and passes
characters on through the ring. `typed` says which characters the codes stand for, from the codes
alone: a key is held when its last code is the one for going down, caps lock is on after an odd number
of times that its key came up, and a character is taken from the table of `initKBD`.

`typesHistory` is that the driver follows the history, with the reader of the ring in between, as
long as each code is read before the next byte is there. Two characters of the table are lost:
`KEY_BSLASH` is registered a second time, for the key with the quotes, so that the reader never gets
a backslash or a bar (`typeable_iff`).
-/

namespace LittleLinux

/-- What can happen to the driver: an interrupt, or a step of the reader. -/
inductive KbdStep
  | interrupt (e : KbdEvent)
  | reader

/-- One of them. -/
def kbdStep (s : Kbd) : KbdStep → Kbd
  | .interrupt e => kbdInterrupt s e
  | .reader => { s with ring := getcharStep s.ring }

/-- The byte that an interrupt takes from the data port. -/
def KbdStep.data : KbdStep → Option UInt8
  | .interrupt e => some e.data
  | .reader => none

/-- No interrupt finds a further byte. -/
def KbdStep.Single : KbdStep → Prop
  | .interrupt e => e.Complete
  | .reader => True

instance : ∀ e : KbdStep, Decidable e.Single
  | .interrupt e => inferInstanceAs (Decidable e.Complete)
  | .reader => isTrue trivial

/-- The codes of a schedule. -/
def codesOf (events : List KbdStep) : List UInt8 := events.filterMap KbdStep.data

/-! ### The history -/

/-- The key of a code. -/
def keyOf (b : UInt8) : KeyCode := initKbd.scanToKeycode (b.toNat % 128)

/-- The key is down: its last code is one for going down. -/
def held (bytes : List UInt8) (k : KeyCode) : Bool :=
  (bytes.reverse.find? fun b => keyOf b = k).any fun b => b < 128

/-- Caps lock changes whenever its key comes up. -/
def capsOn (bytes : List UInt8) : Bool :=
  bytes.countP (fun b => 128 ≤ b && keyOf b = .keyCaps) % 2 = 1

/-- The character of a key. Shift takes the second one of the table, and for letters caps lock takes
the other one. -/
def charOf (k : KeyCode) (shift caps : Bool) : UInt8 :=
  let data := initKbd.keys k
  if shift != (caps && (97 ≤ data.ascii && data.ascii ≤ 122)) then data.altAscii else data.ascii

/-- The character that a code stands for. -/
def typedAt (before : List UInt8) (b : UInt8) : Option UInt8 :=
  if 128 ≤ b then none
  else
    let shift := held (before ++ [b]) .keyLshift || held (before ++ [b]) .keyRshift
    let ch := charOf (keyOf b) shift (capsOn before)
    if ch ≠ 0 then some ch else none

/-- The characters that the codes after the first ones stand for. -/
def typedFrom : List UInt8 → List UInt8 → List UInt8
  | _, [] => []
  | before, b :: bytes => (typedAt before b).toList ++ typedFrom (before ++ [b]) bytes

/-- The characters that a history of codes types. -/
def typed (bytes : List UInt8) : List UInt8 := typedFrom [] bytes

section History

variable {bytes before : List UInt8} {b : UInt8} {k : KeyCode}

theorem held_concat : held (bytes ++ [b]) k = if keyOf b = k then decide (b < 128) else held bytes k := by
  unfold held
  rw [List.reverse_append, List.reverse_singleton, List.singleton_append, List.find?_cons]
  by_cases hk : keyOf b = k
  · rw [if_pos hk, decide_eq_true hk]
    rfl
  · rw [if_neg hk, decide_eq_false hk]

theorem capsOn_concat : capsOn (bytes ++ [b]) =
    if 128 ≤ b ∧ keyOf b = .keyCaps then !capsOn bytes else capsOn bytes := by
  unfold capsOn
  rw [List.countP_append, List.countP_singleton]
  by_cases hb : 128 ≤ b ∧ keyOf b = .keyCaps
  · rw [if_pos hb, if_pos (by simpa using hb), ← decide_not, decide_eq_decide]
    omega
  · rw [if_neg hb, if_neg (by simpa using hb), add_zero]

theorem typedFrom_concat (before bytes : List UInt8) (b : UInt8) :
    typedFrom before (bytes ++ [b]) =
      typedFrom before bytes ++ (typedAt (before ++ bytes) b).toList := by
  induction bytes generalizing before with
  | nil => simp [typedFrom]
  | cons c bytes ih => simp [typedFrom, ih]

theorem typed_concat (bytes : List UInt8) (b : UInt8) :
    typed (bytes ++ [b]) = typed bytes ++ (typedAt bytes b).toList :=
  typedFrom_concat [] bytes b

/-- A code for coming up types nothing. -/
theorem typedAt_of_le (hb : 128 ≤ b) : typedAt before b = none :=
  if_pos hb

end History

/-! ### The driver follows the history -/

/-- The flags of the driver are those of the history, and its tables are those of `initKBD`. -/
structure FollowsKeys (s : Kbd) (bytes : List UInt8) : Prop where
  head : s.scBufferHead = 0
  table : s.scanToKeycode = initKbd.scanToKeycode
  chars : ∀ k, (s.keys k).ascii = (initKbd.keys k).ascii ∧
    (s.keys k).altAscii = (initKbd.keys k).altAscii
  down : ∀ k, s.isDown k = held bytes k
  caps : s.capsLock = capsOn bytes

theorem code_bits : ∀ i < 256, (i &&& 0x80 ≠ 0 ↔ 128 ≤ i) ∧ scanIndex i = i % 128 := by
  decide +kernel

/-- In the table the keys with small letters are those with capital ones. -/
theorem letters_initKbd : ∀ i < 128,
    ((97 ≤ (initKbd.keys (initKbd.scanToKeycode i)).ascii ∧
        (initKbd.keys (initKbd.scanToKeycode i)).ascii ≤ 122) ↔
      (65 ≤ (initKbd.keys (initKbd.scanToKeycode i)).altAscii ∧
        (initKbd.keys (initKbd.scanToKeycode i)).altAscii ≤ 90)) := by
  decide +kernel

section Follow

variable {s : Kbd} {bytes : List UInt8} {e : KbdEvent} {k : KeyCode}

theorem FollowsKeys.boot : FollowsKeys initKbd [] := by
  refine ⟨by decide +kernel, rfl, fun k => ⟨rfl, rfl⟩, fun k => ?_, by decide +kernel⟩
  have hup : ∀ (l : List Registration) (s : Kbd), (∀ k, s.isDown k = false) →
      (l.foldl registerKey s).isDown k = false := by
    intro l
    induction l with
    | nil => exact fun s hs => hs k
    | cons r l ih =>
      intro s hs
      refine ih _ fun k' => ?_
      unfold Kbd.isDown registerKey
      by_cases hk : k' = r.keyCode
      · subst hk
        simp
      · simpa [Function.update_of_ne hk, Kbd.isDown] using hs k'
  exact hup registrations Kbd.boot fun _ => rfl

/-- The character for a key that a code stands for. -/
theorem getASCII_keyOf (hchars : ∀ k, (s.keys k).ascii = (initKbd.keys k).ascii ∧
    (s.keys k).altAscii = (initKbd.keys k).altAscii) (b : UInt8) :
    s.getASCII (keyOf b) =
      charOf (keyOf b) (s.isDown .keyLshift || s.isDown .keyRshift) s.capsLock := by
  obtain ⟨hascii, halt⟩ := hchars (keyOf b)
  have hletters := letters_initKbd (b.toNat % 128) (Nat.mod_lt _ (by decide))
  rw [← keyOf] at hletters
  unfold Kbd.getASCII charOf
  rw [hascii, halt]
  cases s.capsLock with
  | false => cases s.isDown .keyLshift || s.isDown .keyRshift <;> simp
  | true =>
    cases s.isDown .keyLshift || s.isDown .keyRshift with
    | false => simp
    | true =>
      by_cases hsmall : 97 ≤ (initKbd.keys (keyOf b)).ascii ∧ (initKbd.keys (keyOf b)).ascii ≤ 122
      · simp [hsmall, hletters.1 hsmall]
      · simp [hsmall, mt hletters.2 hsmall]

/-- The code of one byte that an interrupt completes. -/
theorem FollowsKeys.code_eq (h : FollowsKeys s bytes) (b : UInt8) : (s.readScanCode b).code = b.toNat := by
  rw [((Pending.nil h.head).readScanCode b).code_eq, List.nil_append, codeOf_singleton]

theorem setPressed_chars (s : Kbd) (k k' : KeyCode) (p : Bool) :
    ((s.setPressed k p).keys k').ascii = (s.keys k').ascii ∧
      ((s.setPressed k p).keys k').altAscii = (s.keys k').altAscii := by
  unfold Kbd.setPressed
  by_cases hk : k' = k
  · subst hk
    simp
  · simp [Function.update_of_ne hk]

theorem setPressed_isDown (s : Kbd) (k k' : KeyCode) (p : Bool) :
    (s.setPressed k p).isDown k' = if k = k' then p else s.isDown k' := by
  unfold Kbd.setPressed Kbd.isDown
  by_cases hk : k = k'
  · subst hk
    simp
  · simp [Function.update_of_ne (Ne.symm hk), hk]

/-- The flag of a key is set or cleared, and everything else follows. -/
theorem FollowsKeys.setPressed (h : FollowsKeys s bytes) (b : UInt8) (caps : Bool)
    (hcaps : caps = capsOn (bytes ++ [b])) (ring : Keyboard) (scanCodeBuffer : ℕ → UInt8) :
    FollowsKeys { s.setPressed (keyOf b) (b < 128) with
      capsLock := caps, ring := ring, scanCodeBuffer := scanCodeBuffer, scBufferHead := 0 }
      (bytes ++ [b]) := by
  refine ⟨rfl, h.table, fun k => ?_, fun k => ?_, hcaps⟩
  · obtain ⟨hascii, halt⟩ := setPressed_chars s (keyOf b) k (b < 128)
    exact ⟨hascii.trans (h.chars k).1, halt.trans (h.chars k).2⟩
  · have hdown := setPressed_isDown s (keyOf b) k (b < 128)
    rw [h.down k, ← held_concat] at hdown
    exact hdown

/-- The ring after a character, if there is one. -/
def offer (ring : Keyboard) : Option UInt8 → Keyboard
  | none => ring
  | some c => putcharToBuffer ring c

/-- **An interrupt follows the history**: the flags are those after one more code, and the ring is
offered the character that the code stands for. -/
theorem FollowsKeys.interrupt (h : FollowsKeys s bytes) (hcomplete : e.Complete) :
    FollowsKeys (kbdInterrupt s e) (bytes ++ [e.data]) ∧
      (kbdInterrupt s e).ring = offer s.ring (typedAt bytes e.data) := by
  obtain ⟨hbreak, hindex⟩ := code_bits e.data.toNat e.data.toNat_lt
  have hkey : (s.readScanCode e.data).scanToKeycode (scanIndex (s.readScanCode e.data).code) =
      keyOf e.data := by
    rw [h.code_eq, hindex, keyOf, ← h.table]
    rfl
  have hle : (128 : UInt8) ≤ e.data ↔ 128 ≤ e.data.toNat := UInt8.le_iff_toNat_le
  have hlt : e.data < (128 : UInt8) ↔ e.data.toNat < 128 := UInt8.lt_iff_toNat_lt
  rw [kbdInterrupt, if_pos hcomplete, Kbd.act]
  dsimp only
  rw [hkey, h.code_eq]
  by_cases hup : 128 ≤ e.data.toNat
  · -- the key comes up
    have hpressed : decide (e.data < 128) = false := decide_eq_false (mt hlt.1 (by omega))
    rw [if_pos (hbreak.2 hup), typedAt_of_le (hle.2 hup)]
    have hnext := fun caps hcaps => h.setPressed e.data caps hcaps s.ring
      (s.readScanCode e.data).scanCodeBuffer
    rw [hpressed] at hnext
    split_ifs with hcapsKey
    · exact ⟨hnext _ (by rw [capsOn_concat, if_pos ⟨hle.2 hup, hcapsKey⟩, ← h.caps]; rfl), rfl⟩
    · exact ⟨hnext _ (by rw [capsOn_concat, if_neg fun hb => hcapsKey hb.2, ← h.caps]; rfl), rfl⟩
  · -- the key goes down
    have hpressed : decide (e.data < 128) = true := decide_eq_true (hlt.2 (by omega))
    have hcaps : s.capsLock = capsOn (bytes ++ [e.data]) := by
      rw [capsOn_concat, if_neg fun hb => hup (hle.1 hb.1), h.caps]
    rw [if_neg (mt hbreak.1 hup)]
    have hnext := fun ring => h.setPressed e.data _ hcaps ring
      (s.readScanCode e.data).scanCodeBuffer
    rw [hpressed] at hnext
    have hchar : ((s.readScanCode e.data).setPressed (keyOf e.data) true).getASCII (keyOf e.data) =
        charOf (keyOf e.data)
          (held (bytes ++ [e.data]) .keyLshift || held (bytes ++ [e.data]) .keyRshift)
          (capsOn bytes) := by
      have hdown := (hnext s.ring).down
      rw [← hdown, ← hdown, ← h.caps]
      exact getASCII_keyOf (hnext s.ring).chars e.data
    rw [hchar, typedAt, if_neg (mt hle.1 hup)]
    dsimp only
    split_ifs with hnul
    · exact ⟨hnext _, rfl⟩
    · exact ⟨hnext _, rfl⟩

end Follow

/-! ### With the reader in between -/

section Offer

variable {ring : Keyboard}

/-- A character is stored, or 255 are pending and it is dropped. -/
theorem KeyboardInv.putchar_accepted (h : KeyboardInv ring) (c : UInt8) :
    (LittleLinux.putcharToBuffer ring c).accepted = ring.accepted ++ [c] ∨
      LittleLinux.putcharToBuffer ring c = ring ∧ ring.pending = 255 := by
  by_cases hnext : (ring.kbufHead + 1).tmod kbufSize = ring.kbufTail
  · refine Or.inr ⟨putcharToBuffer_of_full hnext c, ?_⟩
    have hroom := h.room
    have hfull := mt h.next_ne_iff.2 (not_not.2 hnext)
    unfold Keyboard.pending
    omega
  · exact Or.inl (by rw [putcharToBuffer_of_room hnext])

theorem KeyboardInv.offer (h : KeyboardInv ring) (o : Option UInt8) :
    KeyboardInv (offer ring o) := by
  cases o with
  | none => exact h
  | some c => exact h.putcharToBuffer c

/-- What the ring has accepted after an offer. -/
theorem KeyboardInv.offer_accepted (h : KeyboardInv ring) (o : Option UInt8) :
    (LittleLinux.offer ring o).accepted.Sublist (ring.accepted ++ o.toList) ∧
      (ring.pending < 255 → (LittleLinux.offer ring o).accepted = ring.accepted ++ o.toList) := by
  cases o with
  | none => simp [LittleLinux.offer]
  | some c =>
    obtain hstored | ⟨hsame, hfull⟩ := h.putchar_accepted c
    · exact ⟨hstored ▸ List.Sublist.refl _, fun _ => hstored⟩
    · refine ⟨?_, fun hlt => absurd hfull hlt.ne⟩
      rw [LittleLinux.offer, hsame]
      exact List.sublist_append_left _ _

theorem getcharStep_accepted (s : Keyboard) : (getcharStep s).accepted = s.accepted := by
  unfold getcharStep
  split
  case h_2 => split_ifs <;> rfl
  all_goals rfl

end Offer

/-- After a schedule the driver's flags are those of the history; the reader has got a first part of
what the ring accepted, in order; and the ring accepted what was typed, except for the characters that
found it full. -/
structure TypesHistory (events : List KbdStep) : Prop where
  down : ∀ k, (events.foldl kbdStep initKbd).isDown k = held (codesOf events) k
  caps : (events.foldl kbdStep initKbd).capsLock = capsOn (codesOf events)
  returned : (events.foldl kbdStep initKbd).ring.returned <+:
    (events.foldl kbdStep initKbd).ring.accepted
  accepted : (events.foldl kbdStep initKbd).ring.accepted.Sublist (typed (codesOf events))
  lossless : (∀ pre, pre <+: events → (pre.foldl kbdStep initKbd).ring.pending < 255) →
    (events.foldl kbdStep initKbd).ring.accepted = typed (codesOf events)

section Run

variable {events : List KbdStep} {e : KbdStep}

/-- A reader step changes only the ring. -/
theorem FollowsKeys.reader {s : Kbd} {bytes : List UInt8} (h : FollowsKeys s bytes) :
    FollowsKeys (kbdStep s .reader) bytes :=
  ⟨h.head, h.table, h.chars, h.down, h.caps⟩

theorem codesOf_concat (events : List KbdStep) (e : KbdStep) :
    codesOf (events ++ [e]) = codesOf events ++ e.data.toList := by
  rw [codesOf, List.filterMap_append]
  cases e <;> rfl

/-- The flags and the ring after a schedule. -/
theorem follows_run (hevents : ∀ e ∈ events, e.Single) :
    FollowsKeys (events.foldl kbdStep initKbd) (codesOf events) ∧
      KeyboardInv (events.foldl kbdStep initKbd).ring := by
  induction events using List.reverseRecOn with
  | nil => exact ⟨FollowsKeys.boot, KeyboardInv.boot⟩
  | append_singleton events e ih =>
    obtain ⟨hfollows, hring⟩ := ih fun d hd => hevents d (List.mem_append_left _ hd)
    have he : e.Single := hevents e (by simp)
    rw [List.foldl_concat, codesOf_concat]
    cases e with
    | reader => exact ⟨by simpa [KbdStep.data] using hfollows.reader, hring.getcharStep⟩
    | interrupt e =>
      obtain ⟨hnext, hoffer⟩ := hfollows.interrupt he
      exact ⟨hnext, hoffer ▸ hring.offer _⟩

/-- What the ring accepts is typed, and it accepts everything while there is room. -/
theorem accepted_sublist (hevents : ∀ e ∈ events, e.Single) :
    (events.foldl kbdStep initKbd).ring.accepted.Sublist (typed (codesOf events)) ∧
      ((∀ pre, pre <+: events → (pre.foldl kbdStep initKbd).ring.pending < 255) →
        (events.foldl kbdStep initKbd).ring.accepted = typed (codesOf events)) := by
  induction events using List.reverseRecOn with
  | nil => exact ⟨List.Sublist.refl _, fun _ => rfl⟩
  | append_singleton events e ih =>
    have hbefore : ∀ d ∈ events, d.Single := fun d hd => hevents d (List.mem_append_left _ hd)
    obtain ⟨hsub, hall⟩ := ih hbefore
    obtain ⟨hfollows, hring⟩ := follows_run hbefore
    have he : e.Single := hevents e (by simp)
    rw [List.foldl_concat, codesOf_concat]
    cases e with
    | reader =>
      rw [kbdStep, KbdStep.data, Option.toList_none, List.append_nil]
      dsimp only
      rw [getcharStep_accepted]
      exact ⟨hsub, fun hlt => hall fun pre hpre => hlt pre (hpre.trans (List.prefix_append _ _))⟩
    | interrupt e =>
      obtain ⟨-, hoffer⟩ := hfollows.interrupt he
      obtain ⟨hsub', hall'⟩ := hring.offer_accepted (typedAt (codesOf events) e.data)
      rw [kbdStep, KbdStep.data, Option.toList_some, typed_concat, hoffer]
      refine ⟨hsub'.trans (hsub.append_right _), fun hlt => ?_⟩
      rw [hall' (hlt events (List.prefix_append _ _)),
        hall fun pre hpre => hlt pre (hpre.trans (List.prefix_append _ _))]

/-- **The driver follows the history of the keys**, for every order of interrupts and steps of the
reader in which each interrupt finds one byte. -/
theorem typesHistory (hevents : ∀ e ∈ events, e.Single) : TypesHistory events := by
  obtain ⟨hfollows, hring⟩ := follows_run hevents
  obtain ⟨haccepted, hlossless⟩ := accepted_sublist hevents
  exact ⟨hfollows.down, hfollows.caps, hring.order, haccepted, hlossless⟩

/-- Shift goes down, `a` goes down, shift comes up and `a` is sent again, with a step of the reader
after the first character. -/
theorem typesHistory_shift :
    TypesHistory [.interrupt ⟨0x2a, 0⟩, .interrupt ⟨0x1e, 0x1c⟩, .reader, .interrupt ⟨0xaa, 0⟩,
      .interrupt ⟨0x1e, 0⟩] :=
  typesHistory (by decide)

end Run

/-! ### The characters that can be typed -/

/-- The printable characters except for the backslash and the bar, and those of the keys backspace,
tab and enter. -/
def Typeable (c : UInt8) : Prop :=
  c = 8 ∨ c = 9 ∨ c = 10 ∨ (32 ≤ c ∧ c ≤ 126 ∧ c ≠ 92 ∧ c ≠ 124)

instance (c : UInt8) : Decidable (Typeable c) := inferInstanceAs (Decidable (_ ∨ _))

/-- The table holds no other characters. -/
theorem typeable_charOf : ∀ i < 128, ∀ shift caps,
    charOf (initKbd.scanToKeycode i) shift caps ≠ 0 →
      Typeable (charOf (initKbd.scanToKeycode i) shift caps) := by
  decide +kernel

theorem typeable_of_mem_typedFrom {before bytes : List UInt8} {c : UInt8}
    (h : c ∈ typedFrom before bytes) : Typeable c := by
  induction bytes generalizing before with
  | nil => exact absurd h List.not_mem_nil
  | cons b bytes ih =>
    rw [typedFrom, List.mem_append] at h
    obtain h | h := h
    · rw [Option.mem_toList, typedAt] at h
      by_cases hup : 128 ≤ b
      · rw [if_pos hup] at h
        exact absurd h (by simp)
      · rw [if_neg hup] at h
        dsimp only at h
        split_ifs at h with hnul
        · obtain rfl := Option.some.inj h
          exact typeable_charOf _ (Nat.mod_lt _ (by decide)) _ _ hnul
    · exact ih h

/-- The key with the backslash, as `initKBD` registers it first. -/
def backslashKey : Registration := ⟨.keyBslash, 0x2b, 92, 124⟩

/-- The codes one after the other, and then eight steps of the reader, which are enough for two
characters. -/
def typeAndRead (bytes : List UInt8) : List KbdStep :=
  bytes.map (fun b => .interrupt ⟨b, 0⟩) ++ List.replicate 8 .reader

/-- Every other key gives the reader its characters, the second one with the left shift key down. -/
theorem registration_typed : ∀ r ∈ registrations, r.scanCode < 128 → r ≠ backslashKey →
    r.ascii ∈ 0 :: ((typeAndRead [.ofNat r.scanCode]).foldl kbdStep initKbd).ring.returned ∧
      r.altAscii ∈
        0 :: ((typeAndRead [0x2a, .ofNat r.scanCode]).foldl kbdStep initKbd).ring.returned := by
  decide +kernel

theorem exists_registration : ∀ n < 256, Typeable (.ofNat n) →
    ∃ r ∈ registrations, r.scanCode < 128 ∧ r ≠ backslashKey ∧
      (r.ascii = .ofNat n ∨ r.altAscii = .ofNat n) := by
  decide +kernel

theorem single_typeAndRead (bytes : List UInt8) : ∀ e ∈ typeAndRead bytes, e.Single := by
  intro e he
  obtain he | he := List.mem_append.1 he
  · obtain ⟨b, -, rfl⟩ := List.mem_map.1 he
    exact (rfl : (0 : UInt8) &&& 1 = 0)
  · rw [List.eq_of_mem_replicate he]
    trivial

/-- **What can be typed.** In some order of interrupts and steps of the reader in which each interrupt
finds one byte, `getchar_from_buffer` returns a character, exactly when it is a printable one other than
the backslash and the bar, or that of backspace, tab or enter. -/
theorem typeable_iff (c : UInt8) :
    (∃ events : List KbdStep, (∀ e ∈ events, e.Single) ∧
      c ∈ (events.foldl kbdStep initKbd).ring.returned) ↔ Typeable c := by
  constructor
  · rintro ⟨events, hevents, h⟩
    obtain ⟨-, hring⟩ := follows_run hevents
    exact typeable_of_mem_typedFrom ((accepted_sublist hevents).1.subset (hring.order.subset h))
  · intro hc
    obtain ⟨r, hr, hcode, hne, hchar⟩ := exists_registration c.toNat c.toNat_lt
      (by rwa [UInt8.ofNat_toNat])
    obtain ⟨hplain, hshift⟩ := registration_typed r hr hcode hne
    have hzero : c ≠ 0 := by
      rintro rfl
      revert hc
      decide
    rw [UInt8.ofNat_toNat] at hchar
    obtain hchar | hchar := hchar
    · rw [hchar] at hplain
      exact ⟨_, single_typeAndRead _, (List.mem_cons.1 hplain).resolve_left hzero⟩
    · rw [hchar] at hshift
      exact ⟨_, single_typeAndRead _, (List.mem_cons.1 hshift).resolve_left hzero⟩

example : typed [0x2a, 0x1e, 0xaa, 0x1e, 0x3a, 0xba, 0x1e] = [65, 97, 65] := by decide +kernel

end LittleLinux
