import LittleLinux.Lib.Run
import LittleLinux.Kernel.InterruptStub

/-!
# The interrupt controllers and the handlers

The two controllers take bytes from `initPIC` and `pic_acknowledge` and hand the requests of their lines to the
processor. `interruptsStep` is what can happen next: a device asks for an interrupt, the processor takes the
one that the controllers offer, `interrupt_handler` gets on with the newest interrupt, the stub returns.
Interrupts stay enabled in a handler, since the gates are trap gates, and so they come inside each other.

`InService` is what keeps a handler from coming inside itself: the lines in service are those whose
handlers have not been acknowledged, and a newer one has a higher priority. It needs that
`interrupt_handler` acknowledges only interrupts of the controllers.
-/

namespace LittleLinux

/-! ### A controller -/

/-- What a controller makes of the next byte on its port B. -/
inductive PicState where
  | operating
  | icw2 (single icw4 : Bool)
  | icw3 (icw4 : Bool)
  | icw4
  deriving DecidableEq

/-- An interrupt controller; line 0 has the highest priority. `irr` are the lines that ask for an
interrupt, `isr` those in service. -/
structure Pic where
  state : PicState
  base : UInt8
  autoEoi : Bool
  imr : UInt8
  irr : Fin 8 → Bool
  isr : Fin 8 → Bool

def bit (v : UInt8) (i : ℕ) : Bool := v.toNat.testBit i

namespace Pic

/-- The line of highest priority in service. -/
def highest (p : Pic) : Option (Fin 8) := (List.finRange 8).find? p.isr

/-- A byte to port A: a first initialization word, or an end of interrupt for the line of highest
priority in service. The kernel sends no other. -/
def command (p : Pic) (v : UInt8) : Pic :=
  if bit v 4 then
    { p with
      state := .icw2 (bit v 1) (bit v 0)
      autoEoi := false
      imr := 0
      irr := fun _ => false
      isr := fun _ => false }
  else if v = 0x20 then
    match p.highest with
    | some l => { p with isr := Function.update p.isr l false }
    | none => p
  else p

/-- A byte to port B: the next initialization word, or the mask. -/
def data (p : Pic) (v : UInt8) : Pic :=
  match p.state with
  | .operating => { p with imr := v }
  | .icw2 single icw4 =>
    { p with
      base := v &&& 0xF8
      state := if single then (if icw4 then .icw4 else .operating) else .icw3 icw4 }
  | .icw3 icw4 => { p with state := if icw4 then .icw4 else .operating }
  | .icw4 => { p with autoEoi := bit v 1, state := .operating }

/-- The line whose interrupt is offered, of those that ask: one that is not masked and that no line in
service keeps back. -/
def offered (p : Pic) (asks : Fin 8 → Bool) : Option (Fin 8) :=
  if p.state = .operating then
    ((List.finRange 8).find? fun l => p.isr l || (asks l && !bit p.imr l)).filter fun l => !p.isr l
  else none

/-- The processor takes the interrupt of a line. -/
def take (p : Pic) (l : Fin 8) : Pic :=
  { p with irr := Function.update p.irr l false, isr := Function.update p.isr l (!p.autoEoi) }

end Pic

/-! ### The kernel's two controllers -/

/-- The second one asks on line 2 of the first. -/
structure Pics where
  pic1 : Pic
  pic2 : Pic

def PIC1_PORT_A : UInt16 := 0x20
def PIC1_PORT_B : UInt16 := 0x21
def PIC2_PORT_A : UInt16 := 0xA0
def PIC2_PORT_B : UInt16 := 0xA1

def PIC1_ICW1 : UInt8 := 0x11
def PIC1_ICW2 : UInt8 := 0x20
def PIC2_ICW1 : UInt8 := PIC1_ICW2
def PIC2_ICW2 : UInt8 := 0x28
def PIC1_ICW3 : UInt8 := 0x04
def PIC2_ICW3 : UInt8 := 0x02
def PIC1_ICW4 : UInt8 := 0x05
def PIC2_ICW4 : UInt8 := 0x01
def PIC_EOI : UInt8 := 0x20

namespace Pics

def outb (p : Pics) (port : UInt16) (v : UInt8) : Pics :=
  if port = PIC1_PORT_A then { p with pic1 := p.pic1.command v }
  else if port = PIC1_PORT_B then { p with pic1 := p.pic1.data v }
  else if port = PIC2_PORT_A then { p with pic2 := p.pic2.command v }
  else if port = PIC2_PORT_B then { p with pic2 := p.pic2.data v }
  else p

/-- `pic_mask`. -/
def picMask (p : Pics) (mask1 mask2 : UInt8) : Pics := (p.outb PIC1_PORT_B mask1).outb PIC2_PORT_B mask2

def initPIC (p : Pics) : Pics :=
  let icw1 := (p.outb PIC1_PORT_A PIC1_ICW1).outb PIC2_PORT_A PIC2_ICW1
  let icw2 := (icw1.outb PIC1_PORT_B PIC1_ICW2).outb PIC2_PORT_B PIC2_ICW2
  let icw3 := (icw2.outb PIC1_PORT_B PIC1_ICW3).outb PIC2_PORT_B PIC2_ICW3
  let icw4 := (icw3.outb PIC1_PORT_B PIC1_ICW4).outb PIC2_PORT_B PIC2_ICW4
  icw4.picMask 0xEC 0xFF

/-- The interrupt that the two offer to the processor: its vector, the line of the first controller, and what
they are after it is taken. -/
def interrupt (p : Pics) : Option (UInt8 × Fin 8 × Pics) :=
  let second := p.pic2.offered p.pic2.irr
  match p.pic1.offered fun l => p.pic1.irr l || (l = 2 && second.isSome) with
  | none => none
  | some l =>
    match second with
    | some l₂ =>
      if l = 2 then some (p.pic2.base + .ofNat l₂, l, ⟨p.pic1.take l, p.pic2.take l₂⟩)
      else some (p.pic1.base + .ofNat l, l, { p with pic1 := p.pic1.take l })
    | none => some (p.pic1.base + .ofNat l, l, { p with pic1 := p.pic1.take l })

end Pics

/-! ### Interrupts that come inside each other -/

/-- How far `interrupt_handler` is with an interrupt: in the registered handler, after the first `outb` of
`pic_acknowledge`, and after both. -/
inductive Phase where
  | handler
  | acknowledging
  | acknowledged
  deriving DecidableEq

/-- An interrupt whose stub has not returned. Exceptions and spurious interrupts have no line in service. -/
structure InterruptFrame where
  vector : UInt8
  line : Option (Fin 8)
  phase : Phase

/-- The controllers and the interrupts that are not over, the newest first. -/
structure Interrupts where
  pics : Pics
  frames : List InterruptFrame

inductive InterruptEvent where
  /-- A device asks for an interrupt on a line of the first or the second controller. -/
  | request (second : Bool) (l : Fin 8)
  /-- The processor takes the interrupt that the controllers offer. -/
  | take
  /-- An exception of the processor, or a spurious interrupt. -/
  | other (vector : UInt8)
  /-- `interrupt_handler` of the newest interrupt gets to the next `outb` of `pic_acknowledge`. -/
  | acknowledge
  /-- The stub of the newest interrupt returns. -/
  | iret
  deriving DecidableEq

def Pic.request (p : Pic) (l : Fin 8) : Pic := { p with irr := Function.update p.irr l true }

/-- What happens, if it can. -/
def interruptsStep (s : Interrupts) : InterruptEvent → Interrupts
  | .request false l => { s with pics := { s.pics with pic1 := s.pics.pic1.request l } }
  | .request true l => { s with pics := { s.pics with pic2 := s.pics.pic2.request l } }
  | .take =>
    match s.pics.interrupt with
    | none => s
    | some (v, l, pics) => ⟨pics, ⟨v, some l, .handler⟩ :: s.frames⟩
  | .other v => { s with frames := ⟨v, none, .handler⟩ :: s.frames }
  | .acknowledge =>
    match s.frames with
    | ⟨v, l, .handler⟩ :: fs => ⟨s.pics.outb PIC1_PORT_A PIC_EOI, ⟨v, l, .acknowledging⟩ :: fs⟩
    | ⟨v, l, .acknowledging⟩ :: fs => ⟨s.pics.outb PIC2_PORT_A PIC_EOI, ⟨v, l, .acknowledged⟩ :: fs⟩
    | _ => s
  | .iret =>
    match s.frames with
    | ⟨_, _, .acknowledged⟩ :: fs => { s with frames := fs }
    | _ => s

/-- An exception or a spurious interrupt comes only when no line of the first controller is in service. -/
def ComesAlone (s : Interrupts) : InterruptEvent → Prop
  | .other _ => ∀ l, s.pics.pic1.isr l = false
  | _ => True

instance (s : Interrupts) (e : InterruptEvent) : Decidable (ComesAlone s e) :=
  match e with
  | .other _ => inferInstanceAs (Decidable (∀ l, s.pics.pic1.isr l = false))
  | .request _ _ | .take | .acknowledge | .iret => isTrue trivial

/-- The vectors whose handlers have not been acknowledged, of the interrupts of the controllers. -/
def served (s : Interrupts) : List UInt8 :=
  s.frames.filterMap fun f => if f.phase = .handler ∧ f.line.isSome then some f.vector else none

/-! ### Lines and their priorities -/

/-- The first of the lines is the one that no other comes before. -/
theorem find?_finRange_eq_some {n : ℕ} {f : Fin n → Bool} {l : Fin n} :
    (List.finRange n).find? f = some l ↔ f l = true ∧ ∀ l' < l, f l' = false := by
  rw [List.find?_eq_some_iff_getElem]
  refine and_congr_right fun _ => ⟨?_, fun h => ⟨l, by simp, by simp, fun j hj => ?_⟩⟩
  · rintro ⟨i, hi, rfl, h⟩ l' hl'
    rw [List.getElem_finRange, Fin.lt_def] at hl'
    simpa using h l'.val hl'
  · simpa using h ⟨j, by omega⟩ hj

namespace Pic

variable {p : Pic} {l : Fin 8} {asks : Fin 8 → Bool}

theorem command_eoi_of_highest (h : p.highest = some l) :
    p.command PIC_EOI = { p with isr := Function.update p.isr l false } := by
  rw [command, if_neg (by decide), if_pos (by decide), h]

theorem command_eoi_of_none (h : p.highest = none) : p.command PIC_EOI = p := by
  rw [command, if_neg (by decide), if_pos (by decide), h]

/-- An end of interrupt changes the lines in service only. -/
theorem command_eoi (p : Pic) :
    (p.command PIC_EOI).state = p.state ∧ (p.command PIC_EOI).base = p.base ∧
      (p.command PIC_EOI).autoEoi = p.autoEoi ∧ (p.command PIC_EOI).imr = p.imr := by
  cases h : p.highest with
  | none =>
    rw [command_eoi_of_none h]
    exact ⟨rfl, rfl, rfl, rfl⟩
  | some l =>
    rw [command_eoi_of_highest h]
    exact ⟨rfl, rfl, rfl, rfl⟩

/-- A byte on port B is the mask, when no initialization is going on. -/
theorem data_of_operating (h : p.state = .operating) (v : UInt8) :
    (p.data v).state = .operating ∧ (p.data v).base = p.base ∧ (p.data v).imr = v := by
  rw [data, h]
  exact ⟨rfl, rfl, rfl⟩

/-- What is offered asks, is not masked and has a higher priority than all lines in service. -/
theorem offered_eq_some (h : p.offered asks = some l) :
    asks l = true ∧ bit p.imr l = false ∧ ∀ l', p.isr l' = true → l < l' := by
  rw [offered] at h
  split_ifs at h with hstate
  rw [Option.filter_eq_some_iff, find?_finRange_eq_some] at h
  obtain ⟨⟨hl, hbefore⟩, hisr⟩ := h
  have hisr : p.isr l = false := by simpa using hisr
  rw [hisr, Bool.false_or, Bool.and_eq_true, Bool.not_eq_true'] at hl
  refine ⟨hl.1, hl.2, fun l' hl' => ?_⟩
  by_contra hle
  rcases (not_lt.1 hle).eq_or_lt with rfl | hlt
  · rw [hisr] at hl'
    exact absurd hl' (by simp)
  · have := hbefore l' hlt
    rw [hl'] at this
    exact absurd this (by simp)

/-- A controller whose lines are all masked offers nothing. -/
theorem offered_of_masked (h : p.imr = 0xFF) : p.offered asks = none := by
  cases ho : p.offered asks with
  | none => rfl
  | some l =>
    obtain ⟨-, hmask, -⟩ := offered_eq_some ho
    rw [h] at hmask
    exact absurd hmask ((by decide : ∀ l : Fin 8, ¬bit 0xFF l = false) l)

end Pic

/-! ### The invariant -/

/-- A newer interrupt comes inside an older one, whose handler is running, with a higher priority. -/
def NestedIn (newer older : InterruptFrame) : Prop :=
  newer.phase = .handler → older.phase = .handler →
    ∀ l', older.line = some l' → ∃ l, newer.line = some l ∧ l < l'

/-- The controllers as `initPIC` leaves them. -/
structure SetUp (p : Pics) : Prop where
  state : p.pic1.state = .operating
  base : p.pic1.base = 0x20
  autoEoi : p.pic1.autoEoi = false
  imr : p.pic1.imr = 0xEC
  imr2 : p.pic2.imr = 0xFF

/-- The lines in service are those whose handlers are running, and those run inside each other by
priority. -/
structure InService (s : Interrupts) : Prop where
  setUp : SetUp s.pics
  isr : ∀ l, s.pics.pic1.isr l = true ↔ ∃ f ∈ s.frames, f.phase = .handler ∧ f.line = some l
  nested : s.frames.Pairwise NestedIn
  enabled : ∀ f ∈ s.frames, ∀ l, f.line = some l → (l = 0 ∨ l = 1 ∨ l = 4) ∧ f.vector = 0x20 + .ofNat l

section InService

variable {s : Interrupts} {p : Pics} {v : UInt8} {l : Fin 8}

/-- `initPIC` sets up the first controller; the second one it only masks: its first byte is an end of
interrupt. -/
theorem setUp_initPIC (hp : p.pic2.state = .operating) :
    SetUp p.initPIC ∧ (∀ l, p.initPIC.pic1.isr l = false) ∧ p.initPIC.pic2.base = p.pic2.base := by
  have hicw1 : p.pic1.command PIC1_ICW1 =
      { p.pic1 with
        state := .icw2 false true, autoEoi := false, imr := 0, irr := fun _ => false, isr := fun _ => false } :=
    if_pos (by decide)
  have h1 : p.initPIC.pic1 =
      ((((p.pic1.command PIC1_ICW1).data PIC1_ICW2).data PIC1_ICW3).data PIC1_ICW4).data 0xEC := rfl
  obtain ⟨heoi, hbase, -, -⟩ := p.pic2.command_eoi
  obtain ⟨h28, hbase28, -⟩ := Pic.data_of_operating (heoi.trans hp) PIC2_ICW2
  obtain ⟨h02, hbase02, -⟩ := Pic.data_of_operating h28 PIC2_ICW3
  obtain ⟨h01, hbase01, -⟩ := Pic.data_of_operating h02 PIC2_ICW4
  obtain ⟨-, hbaseFF, himr⟩ := Pic.data_of_operating h01 0xFF
  rw [hicw1] at h1
  refine ⟨⟨?_, ?_, ?_, ?_, himr⟩, fun l => ?_,
    hbaseFF.trans (hbase01.trans (hbase02.trans (hbase28.trans hbase)))⟩
  all_goals rw [h1]; rfl

/-- With the second controller masked, an interrupt is one of the first. -/
theorem SetUp.interrupt {p' : Pics} (h : SetUp p) (hi : p.interrupt = some (v, l, p')) :
    p' = { p with pic1 := p.pic1.take l } ∧ v = 0x20 + .ofNat l ∧ (l = 0 ∨ l = 1 ∨ l = 4) ∧
      ∀ l', p.pic1.isr l' = true → l < l' := by
  rw [Pics.interrupt, Pic.offered_of_masked h.imr2] at hi
  dsimp only at hi
  split at hi
  · exact absurd hi (by simp)
  · rename_i l' hl'
    obtain ⟨rfl, hrest⟩ := Prod.mk.inj (Option.some.inj hi)
    obtain ⟨rfl, rfl⟩ := Prod.mk.inj hrest
    obtain ⟨-, hmask, hfirst⟩ := Pic.offered_eq_some hl'
    rw [h.imr] at hmask
    refine ⟨rfl, by rw [h.base], ?_, hfirst⟩
    exact (by decide : ∀ l : Fin 8, bit 0xEC l = false → l = 0 ∨ l = 1 ∨ l = 4) _ hmask

theorem InService.take (h : InService s) : InService (interruptsStep s .take) := by
  rw [interruptsStep]
  cases hi : s.pics.interrupt with
  | none => exact h
  | some i =>
    obtain ⟨v, l, p'⟩ := i
    obtain ⟨rfl, rfl, hl, hfirst⟩ := h.setUp.interrupt hi
    refine ⟨⟨h.setUp.state, h.setUp.base, h.setUp.autoEoi, h.setUp.imr, h.setUp.imr2⟩, fun l' => ?_, ?_, ?_⟩
    · rcases eq_or_ne l' l with rfl | hne
      · simp [Pic.take, h.setUp.autoEoi]
      · simp [Pic.take, hne, h.isr, hne.symm]
    · refine List.pairwise_cons.2 ⟨fun f hf _ hphase l' hl' => ⟨l, rfl, ?_⟩, h.nested⟩
      exact hfirst l' ((h.isr l').2 ⟨f, hf, hphase, hl'⟩)
    · intro f hf l' hl'
      rcases List.mem_cons.1 hf with rfl | hf
      · obtain rfl := Option.some.inj hl'
        exact ⟨hl, rfl⟩
      · exact h.enabled f hf l' hl'

theorem InService.other (h : InService s) (hquiet : ∀ l, s.pics.pic1.isr l = false) (v : UInt8) :
    InService (interruptsStep s (.other v)) := by
  refine ⟨h.setUp, fun l => ?_, List.pairwise_cons.2 ⟨fun f hf _ hphase l hl => ?_, h.nested⟩, fun f hf l hl => ?_⟩
  · rw [interruptsStep]
    simp [h.isr]
  · have hin := (h.isr l).2 ⟨f, hf, hphase, hl⟩
    rw [hquiet l] at hin
    exact absurd hin (by simp)
  · rcases List.mem_cons.1 hf with rfl | hf
    · exact absurd hl (by simp)
    · exact h.enabled f hf l hl

/-- The line of the newest interrupt is the one that its end of interrupt ends. -/
theorem InService.highest {l : Option (Fin 8)} {fs : List InterruptFrame} (h : InService s)
    (hfs : s.frames = ⟨v, l, .handler⟩ :: fs) : s.pics.pic1.highest = l := by
  have hnested := h.nested
  rw [hfs, List.pairwise_cons] at hnested
  have hserved (l' : Fin 8) (hl' : s.pics.pic1.isr l' = true) : l = some l' ∨ ∃ l₀, l = some l₀ ∧ l₀ < l' := by
    obtain ⟨f, hf, hphase, hline⟩ := (h.isr l').1 hl'
    rw [hfs] at hf
    rcases List.mem_cons.1 hf with rfl | hf
    · exact Or.inl hline
    · exact Or.inr (hnested.1 f hf rfl hphase l' hline)
  cases l with
  | none =>
    refine List.find?_eq_none.2 fun l' _ hl' => ?_
    rcases hserved l' hl' with h' | ⟨l₀, h', -⟩
    all_goals exact absurd h' (by simp)
  | some l =>
    refine find?_finRange_eq_some.2 ⟨?_, fun l' hlt => ?_⟩
    · refine (h.isr l).2 ⟨⟨v, some l, .handler⟩, ?_, rfl, rfl⟩
      rw [hfs]
      exact List.mem_cons_self
    · by_contra hl'
      rcases hserved l' (by simpa using hl') with h' | ⟨l₀, h', hlt'⟩
      · obtain rfl := Option.some.inj h'
        exact lt_irrefl _ hlt
      · obtain rfl := Option.some.inj h'
        exact lt_asymm hlt hlt'

theorem InService.acknowledge (h : InService s) : InService (interruptsStep s .acknowledge) := by
  rw [interruptsStep.eq_def]
  dsimp only
  split
  · rename_i v l fs hfs
    have hhighest := h.highest hfs
    have hisr := h.isr
    have hnested := h.nested
    have henabled := h.enabled
    rw [hfs] at hisr hnested henabled
    obtain ⟨hstate, hbase, hauto, himr⟩ := s.pics.pic1.command_eoi
    refine ⟨⟨hstate.trans h.setUp.state, hbase.trans h.setUp.base, hauto.trans h.setUp.autoEoi,
      himr.trans h.setUp.imr, h.setUp.imr2⟩, fun l' => ?_, ?_, ?_⟩
    · have hpic : (s.pics.outb PIC1_PORT_A PIC_EOI).pic1 = s.pics.pic1.command PIC_EOI := rfl
      rw [hpic]
      -- the command ends the line of highest priority in service, which is the innermost handler's
      cases l with
      | none =>
        rw [Pic.command_eoi_of_none hhighest, hisr l']
        simp
      | some l =>
        rw [Pic.command_eoi_of_highest hhighest]
        rcases eq_or_ne l' l with rfl | hne
        · have hold (f : InterruptFrame) (hf : f ∈ fs) (hphase : f.phase = .handler) : f.line ≠ some l' := by
            intro hline
            obtain ⟨l₀, hl₀, hlt⟩ := (List.pairwise_cons.1 hnested).1 f hf rfl hphase l' hline
            obtain rfl := Option.some.inj hl₀
            exact lt_irrefl _ hlt
          simpa using hold
        · have hline := hisr l'
          simpa [hne, hne.symm] using hline
    · rw [List.pairwise_cons] at hnested ⊢
      exact ⟨fun f _ hphase => absurd hphase (by simp), hnested.2⟩
    · rintro f hf l' hl'
      rcases List.mem_cons.1 hf with rfl | hf
      · exact henabled ⟨v, l, .handler⟩ List.mem_cons_self l' hl'
      · exact henabled f (List.mem_cons_of_mem _ hf) l' hl'
  -- the second command goes to the slave and leaves the master alone
  · rename_i v l fs hfs
    have hisr := h.isr
    have hnested := h.nested
    have henabled := h.enabled
    rw [hfs] at hisr hnested henabled
    obtain ⟨-, -, -, himr⟩ := s.pics.pic2.command_eoi
    refine ⟨⟨h.setUp.state, h.setUp.base, h.setUp.autoEoi, h.setUp.imr, himr.trans h.setUp.imr2⟩,
      fun l' => ?_, ?_, ?_⟩
    · refine (hisr l').trans ?_
      simp
    · rw [List.pairwise_cons] at hnested ⊢
      exact ⟨fun f _ hphase => absurd hphase (by simp), hnested.2⟩
    · rintro f hf l' hl'
      rcases List.mem_cons.1 hf with rfl | hf
      · exact henabled ⟨v, l, .acknowledging⟩ List.mem_cons_self l' hl'
      · exact henabled f (List.mem_cons_of_mem _ hf) l' hl'
  · exact h

theorem InService.iret (h : InService s) : InService (interruptsStep s .iret) := by
  rw [interruptsStep.eq_def]
  dsimp only
  split
  · rename_i v l fs hfs
    have hisr := h.isr
    have hnested := h.nested
    have henabled := h.enabled
    rw [hfs] at hisr hnested henabled
    refine ⟨h.setUp, fun l' => (hisr l').trans ?_, hnested.of_cons, fun f hf => henabled f (List.mem_cons_of_mem _ hf)⟩
    simp
  · exact h

theorem InService.step (h : InService s) (e : InterruptEvent) (halone : ComesAlone s e) :
    InService (interruptsStep s e) := by
  cases e with
  | request second l =>
    have hset := h.setUp
    cases second
    all_goals exact ⟨⟨hset.state, hset.base, hset.autoEoi, hset.imr, hset.imr2⟩, h.isr, h.nested, h.enabled⟩
  | take => exact h.take
  | other v => exact h.other halone v
  | acknowledge => exact h.acknowledge
  | iret => exact h.iret

/-- Nothing is in service after `initPIC`. -/
theorem InService.boot (hp : p.pic2.state = .operating) : InService ⟨p.initPIC, []⟩ where
  setUp := (setUp_initPIC hp).1
  isr := fun l => by simp [(setUp_initPIC hp).2.1 l]
  nested := .nil
  enabled := fun f hf => absurd hf List.not_mem_nil

end InService

/-! ### Handlers that run inside each other -/

theorem mem_served {s : Interrupts} {v : UInt8} :
    v ∈ served s ↔ ∃ f ∈ s.frames, f.phase = .handler ∧ (∃ l, f.line = some l) ∧ f.vector = v := by
  rw [served, List.mem_filterMap]
  refine exists_congr fun f => and_congr_right fun _ => ?_
  rw [Option.ite_none_right_eq_some, Option.isSome_iff_exists, Option.some_inj, and_assoc]

theorem InService.mem_served_iff {s : Interrupts} (h : InService s) (l : Fin 8) :
    0x20 + .ofNat l ∈ served s ↔ s.pics.pic1.isr l = true := by
  rw [mem_served, h.isr]
  refine exists_congr fun f => and_congr_right fun hf => and_congr_right fun _ => ?_
  constructor
  · rintro ⟨⟨l', hl'⟩, hv⟩
    rw [(h.enabled f hf l' hl').2] at hv
    rw [hl', (by decide : ∀ l l' : Fin 8, (0x20 : UInt8) + .ofNat l' = 0x20 + .ofNat l → l' = l) l l' hv]
  · exact fun hl => ⟨⟨l, hl⟩, (h.enabled f hf l hl).2⟩

theorem InService.pairwise_served {s : Interrupts} (h : InService s) : (served s).Pairwise (· < ·) := by
  rw [served, List.pairwise_filterMap]
  refine h.nested.imp_of_mem fun {newer older} hnewer holder hnested v hv v' hv' => ?_
  simp only [Option.ite_none_right_eq_some, Option.isSome_iff_exists, Option.some_inj] at hv hv'
  obtain ⟨⟨hphase, -⟩, rfl⟩ := hv
  obtain ⟨⟨hphase', l', hl'⟩, rfl⟩ := hv'
  obtain ⟨l, hl, hlt⟩ := hnested hphase hphase' l' hl'
  rw [(h.enabled newer hnewer l hl).2, (h.enabled older holder l' hl').2]
  exact (by decide : ∀ l l' : Fin 8, l < l' → (0x20 : UInt8) + .ofNat l < 0x20 + .ofNat l') l l' hlt

theorem InService.served_eq {s : Interrupts} (h : InService s) {v : UInt8} (hv : v ∈ served s) :
    v = 32 ∨ v = 33 ∨ v = 36 := by
  obtain ⟨f, hf, -, ⟨l, hl⟩, rfl⟩ := mem_served.1 hv
  obtain ⟨hl, hvector⟩ := h.enabled f hf l hl
  rw [hvector]
  rcases hl with rfl | rfl | rfl
  all_goals decide

/-- **No handler comes inside itself.** In every order of requests, interrupts, acknowledgements and returns
after `initPIC`, in which exceptions and spurious interrupts come only when no line of the first controller is in
service: the handlers that run are those of the lines in service, timer, keyboard and the first
serial port at most, and each runs inside handlers of lower priority only. -/
theorem handlers_nest {p : Pics} (hp : p.pic2.state = .operating) (events : List InterruptEvent)
    (h : Along interruptsStep ComesAlone ⟨p.initPIC, []⟩ events) :
    let s := events.foldl interruptsStep ⟨p.initPIC, []⟩
    (served s).Pairwise (· < ·) ∧ (∀ v ∈ served s, v = 32 ∨ v = 33 ∨ v = 36) ∧ (served s).length ≤ 3 ∧
      ∀ l, s.pics.pic1.isr l = true ↔ 0x20 + .ofNat l ∈ served s := by
  intro s
  have hs : InService s := Along.invariant (fun _ e hs halone => hs.step e halone) (InService.boot hp) h
  have hpairwise := hs.pairwise_served
  refine ⟨hpairwise, fun v hv => hs.served_eq hv, ?_, fun l => (hs.mem_served_iff l).symm⟩
  have hnodup : (served s).Nodup := hpairwise.imp fun hlt => UInt8.ne_of_lt hlt
  have hsubset : served s ⊆ [32, 33, 36] := fun v hv => by simpa using hs.served_eq hv
  exact (hnodup.subperm hsubset).length_le

/-- Controllers as a firmware may leave them. -/
def firmwarePics : Pics where
  pic1 := ⟨.operating, 0x08, false, 0xB8, fun _ => false, fun _ => false⟩
  pic2 := ⟨.operating, 0x70, false, 0x8E, fun _ => false, fun _ => false⟩

/-- The timer comes while the keyboard's handler runs, and the keyboard again before that. -/
def nestedInterrupts : List InterruptEvent :=
  [.request false 1, .take, .request false 1, .take, .request false 0, .take, .acknowledge, .acknowledge, .iret]

theorem handlers_nest_timerInKeyboard :
    (served (nestedInterrupts.foldl interruptsStep ⟨firmwarePics.initPIC, []⟩)).Pairwise (· < ·) :=
  (handlers_nest rfl nestedInterrupts (by decide)).1

/-- An exception in the keyboard's handler: its acknowledgement is taken for the keyboard's, and the
keyboard comes again. -/
example : served ([.request false 1, .take, .other 14, .acknowledge, .acknowledge, .iret, .request false 1,
    .take].foldl interruptsStep ⟨firmwarePics.initPIC, []⟩) = [33, 33] := by
  decide

end LittleLinux
