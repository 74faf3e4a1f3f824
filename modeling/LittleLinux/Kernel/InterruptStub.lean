import LittleLinux.Lib.Interruption

/-!
# Interrupt gates and stubs

`initIDT` fills the interrupt descriptor table with gates, and each gate leads to a stub of
`interrupt_handle.asm` that saves the registers, calls `interrupt_handler` and returns. `deliver` is what the
processor does with a gate.

The stubs find the stack as the processor leaves it, with an error code or without one
(`interrupt_resumes`), and so an interrupted program goes on as if nothing had happened, however many
interrupts come inside each other.
-/

namespace LittleLinux

/-! ### The gates -/

/-- `struct idt_gate`. -/
structure IdtGate where
  handlerLow : UInt16
  segsel : UInt16
  zero : UInt8
  config : UInt8
  handlerHigh : UInt16
  deriving DecidableEq

/-- `createIDTGate`. -/
def createIDTGate (idt : UInt8 → IdtGate) (n : UInt8) (handler : UInt32) (type pl : UInt8) : UInt8 → IdtGate :=
  Function.update idt n
    { handlerLow := (handler &&& 0x0000FFFF).toUInt16
      handlerHigh := ((handler >>> 16) &&& 0x0000FFFF).toUInt16
      segsel := 0x08
      zero := 0
      config := (0x01 : UInt8) <<< 7 ||| (pl &&& 0x03) <<< 5 ||| (0x01 : UInt8) <<< 3 ||| (0x01 : UInt8) <<< 2 |||
        (0x01 : UInt8) <<< 1 ||| type }

/-- The exceptions of protected mode and the two times eight interrupts of the controllers. -/
def gateVectors : List UInt8 :=
  [0, 1, 2, 3, 4, 5, 6, 7, 8, 9, 10, 11, 12, 13, 14, 15, 16, 17, 18, 19,
    32, 33, 34, 35, 36, 37, 38, 39, 40, 41, 42, 43, 44, 45, 46, 47]

/-- `initIDT`, with the addresses of the functions `interrupt_handler_0` to `interrupt_handler_47`. -/
def initIDT (interruptHandlers : UInt8 → UInt32) : UInt8 → IdtGate :=
  gateVectors.foldl (fun idt v => createIDTGate idt v (interruptHandlers v) 1 0) fun _ => ⟨0, 0, 0, 0, 0⟩

namespace IdtGate

/-- How the processor reads a gate. -/
def offset (g : IdtGate) : UInt32 := g.handlerHigh.toUInt32 <<< 16 ||| g.handlerLow.toUInt32

def present (g : IdtGate) : Bool := g.config &&& 0x80 != 0

/-- The privilege that a program needs to call the gate. -/
def dpl (g : IdtGate) : UInt8 := (g.config >>> 5) &&& 0x03

/-- `0xE` for an interrupt gate and `0xF` for a trap gate of 32 bits. -/
def type (g : IdtGate) : UInt8 := g.config &&& 0x1F

end IdtGate

/-! ### The stubs -/

section Stubs

-- the address of the C function `interrupt_handler`
variable (interruptHandler : UInt32)

def commonInterruptHandler : List Instr :=
  [.push .esp, .addTop 8, .push .eax, .push .ebx, .push .ecx, .push .edx, .push .ebp, .push .esi, .push .edi,
    .call interruptHandler,
    .pop .edi, .pop .esi, .pop .ebp, .pop .edx, .pop .ecx, .pop .ebx, .pop .eax, .pop .esp, .iret]

def noErrorCodeHandler (n : UInt8) : List Instr :=
  .pushImm 0 :: .pushImm n.toUInt32 :: commonInterruptHandler interruptHandler

def errorCodeHandler (n : UInt8) : List Instr :=
  .pushImm n.toUInt32 :: commonInterruptHandler interruptHandler

/-- `interrupt_handler_0` to `interrupt_handler_47`. -/
def interruptHandlerStub (n : UInt8) : List Instr :=
  if n ∈ [(8 : UInt8), 10, 11, 12, 13, 14, 17] then errorCodeHandler interruptHandler n
  else noErrorCodeHandler interruptHandler n

end Stubs

/-! ### The processor -/

/-- The exceptions that come with an error code. -/
def pushesErrorCode (v : UInt8) : Bool := v ∈ [(8 : UInt8), 10, 11, 12, 13, 14, 17, 21, 29, 30]

/-- The flags after a gate: a trap gate clears TF, NT, RF and VM, an interrupt gate IF too. -/
def enteredFlags (g : IdtGate) (eflags : UInt32) : UInt32 :=
  if g.type = 0x0F then eflags &&& ~~~0x00034100 else eflags &&& ~~~0x00034300

/-- What the processor pushes for an interrupt with its vector and, if it comes with one, its error
code. -/
def pushContext (k : UInt8 × UInt32) (s : Machine) : Machine :=
  let s₁ := ((s.push s.cpu.eflags).push s.cpu.cs.toUInt32).push s.cpu.eip
  if pushesErrorCode k.1 then s₁.push k.2 else s₁

/-- An interrupt or exception comes. Without a gate for it the processor does something else. -/
def deliver (idt : UInt8 → IdtGate) (k : UInt8 × UInt32) (s : Machine) : Option Machine :=
  if (idt k.1).present ∧ ((idt k.1).type = 0x0E ∨ (idt k.1).type = 0x0F) then
    some ⟨{ (pushContext k s).cpu with
      eip := (idt k.1).offset
      cs := (idt k.1).segsel
      eflags := enteredFlags (idt k.1) s.cpu.eflags }, (pushContext k s).mem⟩
  else none

/-! ### What the processor finds in the table -/

theorem offset_split (a : UInt32) :
    ((a >>> 16) &&& 0x0000FFFF).toUInt16.toUInt32 <<< 16 ||| (a &&& 0x0000FFFF).toUInt16.toUInt32 = a := by
  have hmask : (65535 : ℕ) = 2 ^ 16 - 1 := rfl
  have hlt : a.toNat < 2 ^ 32 := a.toNat_lt
  rw [← UInt32.toNat_inj]
  simp only [UInt32.toNat_or, UInt32.toNat_shiftLeft, UInt16.toNat_toUInt32, UInt32.toNat_toUInt16,
    UInt32.toNat_and, UInt32.toNat_shiftRight, UInt32.reduceToNat, hmask, Nat.and_two_pow_sub_one_eq_mod,
    Nat.shiftRight_eq_div_pow, Nat.mod_mod, Nat.reduceMod]
  rw [Nat.mod_eq_of_lt (by omega : a.toNat / 2 ^ 16 < 2 ^ 16), Nat.shiftLeft_eq, Nat.mod_eq_of_lt (by omega),
    ← Nat.shiftLeft_eq, ← Nat.shiftLeft_add_eq_or_of_lt (Nat.mod_lt _ (by decide)), Nat.shiftLeft_eq]
  omega

/-- **A gate is read as it was meant**, if its type is a bit. -/
theorem createIDTGate_self (idt : UInt8 → IdtGate) (n : UInt8) (handler : UInt32) {type : UInt8}
    (htype : type = 0 ∨ type = 1) (pl : UInt8) :
    (createIDTGate idt n handler type pl n).offset = handler ∧
      (createIDTGate idt n handler type pl n).segsel = 0x08 ∧
      (createIDTGate idt n handler type pl n).present = true ∧
      (createIDTGate idt n handler type pl n).dpl = pl &&& 0x03 ∧
      (createIDTGate idt n handler type pl n).type = 0x0E ||| type := by
  have hpl : pl &&& 0x03 = 0 ∨ pl &&& 0x03 = 1 ∨ pl &&& 0x03 = 2 ∨ pl &&& 0x03 = 3 := by
    have hle : (pl &&& 3).toNat ≤ 3 := by
      rw [UInt8.toNat_and]
      exact Nat.and_le_right
    simp only [← UInt8.toNat_inj, UInt8.reduceToNat]
    omega
  rw [createIDTGate, Function.update_self]
  refine ⟨offset_split handler, rfl, ?_⟩
  rw [IdtGate.present, IdtGate.dpl, IdtGate.type]
  dsimp only
  obtain h | h | h | h := hpl
  all_goals
    rw [h]
    obtain rfl | rfl := htype
    all_goals exact ⟨by decide, by decide, by decide⟩

theorem foldl_createIDTGate (f : UInt8 → UInt32) (vs : List UInt8) (idt : UInt8 → IdtGate) (v : UInt8) :
    vs.foldl (fun idt v => createIDTGate idt v (f v) 1 0) idt v =
      if v ∈ vs then createIDTGate idt v (f v) 1 0 v else idt v := by
  induction vs generalizing idt with
  | nil => simp
  | cons w vs ih =>
    rw [List.foldl_cons, ih]
    rcases eq_or_ne v w with rfl | hne
    · simp [createIDTGate]
    · by_cases hv : v ∈ vs
      · simp [createIDTGate, hv]
      · simp [createIDTGate, hv, hne]

/-- The table has gates for its vectors, and nothing else. -/
theorem initIDT_apply (f : UInt8 → UInt32) (v : UInt8) :
    (v ∈ gateVectors ∧ (initIDT f v).offset = f v ∧ (initIDT f v).segsel = 0x08 ∧
      (initIDT f v).present = true ∧ (initIDT f v).dpl = 0 ∧ (initIDT f v).type = 0x0F) ∨
    v ∉ gateVectors ∧ (initIDT f v).present = false := by
  rw [initIDT, foldl_createIDTGate]
  by_cases hv : v ∈ gateVectors
  · rw [if_pos hv]
    exact Or.inl ⟨hv, createIDTGate_self _ v (f v) (Or.inr rfl) 0⟩
  · rw [if_neg hv]
    exact Or.inr ⟨hv, rfl⟩

/-! ### A stub on the words of the stack -/

section Served

variable {addFlags : UInt32 → UInt32 → UInt32 → UInt32} {addr : List Instr → UInt32} {interruptHandler : UInt32}
  {s : Machine} {c : Processor} {v errorCode : UInt32}

/-- The words of the processor `c` that the processor and the stubs push, with the interrupted program's `esp`
less the three that the processor pushed. -/
def savedWords (c : Processor) (v errorCode : UInt32) : List UInt32 :=
  [c.reg .edi, c.reg .esi, c.reg .ebp, c.reg .edx, c.reg .ecx, c.reg .ebx, c.reg .eax, c.esp - 12,
    v, errorCode, c.eip, c.cs.toUInt32, c.eflags]

theorem leads_common (hroom : 60 ≤ s.cpu.esp.toNat) (hreg : ∀ r, r ≠ .esp → c.reg r = s.cpu.reg r)
    (hesp : c.esp = s.cpu.esp - 20) :
    Leads addFlags addr s.cpu.esp.toNat (fun f ws => f = interruptHandler ∧ ws = savedWords s.cpu v errorCode)
      (fun a => a.cpu = s.cpu ∧ a.words = []) (commonInterruptHandler interruptHandler)
      ⟨c, [v, errorCode, s.cpu.eip, s.cpu.cs.toUInt32, s.cpu.eflags]⟩ := by
  -- the stub pushes its stack pointer plus 8: past the vector and the error code, 12 below the
  -- interrupted one
  have hsaved : c.reg .esp + 8 = s.cpu.esp - 12 := by
    have h : c.reg .esp = s.cpu.esp - 20 := hesp
    rw [h]
    grind
  have hkept : (s.cpu.esp - 12).toNat = s.cpu.esp.toNat - 12 := UInt32.toNat_sub_of_le _ _ (by
    rw [UInt32.le_iff_toNat_le]
    exact le_trans (by decide) hroom)
  refine ⟨by simp; omega, _, rfl, by simp; omega, _, rfl, ?_⟩
  refine leads_pushes s.cpu.reg [.eax, .ebx, .ecx, .edx, .ebp, .esi, .edi] (by decide) (fun r hr => ?_)
    (by simp; omega) fun c₁ => ⟨by simp; omega, ⟨rfl, ?_⟩, fun c₂ _ => ?_⟩
  · rw [← hreg r hr]
    exact Function.update_of_ne hr _ _
  · rw [savedWords, ← hsaved]
    rfl
  rw [hsaved]
  refine leads_pops s.cpu.reg [.edi, .esi, .ebp, .edx, .ecx, .ebx, .eax] [] (by decide)
    (fun r hr => absurd hr List.not_mem_nil) (by simp; omega) fun c₃ hc₃ => ?_
  have hcount : (s.cpu.esp.toNat - (s.cpu.esp - 12).toNat) / 4 = 3 := by
    rw [hkept]
    omega
  refine ⟨by simp; omega, ⟨(c₃.set .esp (s.cpu.esp - 12)).goto (addr [.iret]),
    [s.cpu.eip, s.cpu.cs.toUInt32, s.cpu.eflags]⟩, ?_, by simp; omega, _, rfl, ?_, rfl⟩
  · rw [Instr.stackExec, if_pos rfl, hcount, if_pos ⟨by rw [hkept]; omega, by simp⟩]
    rfl
  refine Processor.ext (funext fun r => ?_) rfl (UInt16.toUInt16_toUInt32 _) rfl
  -- `iret` takes the last three words, which brings the stack pointer back
  rcases eq_or_ne r .esp with rfl | hr
  · have hback : (((c₃.set .esp (s.cpu.esp - 12)).goto (addr [.iret])).up.up.up).esp = s.cpu.esp := by
      simp only [Processor.esp_up, Processor.esp_goto, Processor.esp_set_esp]
      grind
    exact hback
  · have hkeep (c : Processor) (w : UInt32) : (c.set .esp w).reg r = c.reg r := Function.update_of_ne hr _ _
    refine Eq.trans ?_ (hc₃ r (Or.inr ?_) hr)
    · exact (hkeep _ _).trans ((hkeep _ _).trans ((hkeep _ _).trans (hkeep _ _)))
    · cases r <;> simp at hr ⊢

end Served

/-! ### Interrupts of the kernel -/

section Kernel

variable (addr : List Instr → UInt32) (interruptHandler : UInt32)

/-- The address of the function `interrupt_handler_n`. -/
def stubAddress (n : UInt8) : UInt32 := addr (interruptHandlerStub interruptHandler n)

/-- The stub at an address. -/
def stubAt (a : UInt32) : List Instr :=
  ((gateVectors.find? fun n => stubAddress addr interruptHandler n = a).map
    (interruptHandlerStub interruptHandler)).getD []

/-- What the kernel's table makes of an interrupt. -/
def kernelEnter (k : UInt8 × UInt32) (s : Machine) : Option Machine :=
  deliver (initIDT (stubAddress addr interruptHandler)) k s

/-- The code that the gate of an interrupt leads to. -/
def kernelCode (k : UInt8 × UInt32) : List Instr :=
  stubAt addr interruptHandler (initIDT (stubAddress addr interruptHandler) k.1).offset

/-- An execution of code of the kernel, with interrupts. -/
abbrev KernelExecutes (addFlags : UInt32 → UInt32 → UInt32 → UInt32) (work : ℕ → Machine → Machine → Prop) :
    Position → Machine → Machine → Prop :=
  Executes addFlags addr (kernelEnter addr interruptHandler) (kernelCode addr interruptHandler) work 60

/-- No two stubs have the same address. -/
def StubsApart : Prop :=
  ∀ v ∈ gateVectors, ∀ w ∈ gateVectors,
    stubAddress addr interruptHandler v = stubAddress addr interruptHandler w → v = w

/-- The error code of an interrupt, or the zero that its stub pushes. -/
def errorCodeOf (k : UInt8 × UInt32) : UInt32 := if pushesErrorCode k.1 then k.2 else 0

/-- `interrupt_handler` is called with the interrupted processor. -/
def CallsHandler (k : UInt8 × UInt32) (c : Processor) (f : UInt32) (ws : List UInt32) : Prop :=
  f = interruptHandler ∧ ws = savedWords c k.1.toUInt32 (errorCodeOf k)

variable {addr interruptHandler}

theorem stubAt_stubAddress (h : StubsApart addr interruptHandler) {v : UInt8} (hv : v ∈ gateVectors) :
    stubAt addr interruptHandler (stubAddress addr interruptHandler v) =
      interruptHandlerStub interruptHandler v := by
  obtain ⟨w, hw⟩ : ∃ w, gateVectors.find? (fun n => stubAddress addr interruptHandler n =
      stubAddress addr interruptHandler v) = some w := by
    rw [← Option.isSome_iff_exists, List.find?_isSome]
    exact ⟨v, hv, by simp⟩
  have heq := List.find?_some hw
  have hmem := List.mem_of_find?_eq_some hw
  rw [stubAt, hw, h v hv w hmem (of_decide_eq_true heq).symm]
  rfl

theorem pushesErrorCode_iff : ∀ v ∈ gateVectors,
    (pushesErrorCode v = true ↔ v ∈ [(8 : UInt8), 10, 11, 12, 13, 14, 17]) := by
  decide +kernel

/-- The table sends an interrupt to its stub, or has no gate for it. -/
theorem kernelEnter_eq (h : StubsApart addr interruptHandler) {k : UInt8 × UInt32} {s s₁ : Machine}
    (henter : kernelEnter addr interruptHandler k s = some s₁) :
    k.1 ∈ gateVectors ∧ kernelCode addr interruptHandler k = interruptHandlerStub interruptHandler k.1 ∧
      s₁.cpu.reg = (pushContext k s).cpu.reg ∧ s₁.mem = (pushContext k s).mem ∧
      s₁.cpu.eip = stubAddress addr interruptHandler k.1 ∧ s₁.cpu.cs = 0x08 := by
  rw [kernelEnter, deliver] at henter
  rcases initIDT_apply (stubAddress addr interruptHandler) k.1 with
    ⟨hv, hoffset, hsegsel, hpresent, -, htype⟩ | ⟨-, hpresent⟩
  · rw [if_pos ⟨hpresent, Or.inr htype⟩] at henter
    obtain rfl := Option.some.inj henter
    exact ⟨hv, by rw [kernelCode, hoffset, stubAt_stubAddress h hv], rfl, rfl, hoffset, hsegsel⟩
  · rw [if_neg (by rw [hpresent]; simp)] at henter
    exact absurd henter (by simp)

theorem exists_kernelEnter {a : List Instr → UInt32} {f : UInt32} {k : UInt8 × UInt32}
    (hv : k.1 ∈ gateVectors) (s : Machine) :
    ∃ s₁, kernelEnter a f k s = some s₁ ∧ s₁.cpu.esp = (pushContext k s).cpu.esp := by
  rcases initIDT_apply (stubAddress a f) k.1 with ⟨-, -, -, hpresent, -, htype⟩ | ⟨hv', -⟩
  · exact ⟨_, if_pos ⟨hpresent, Or.inr htype⟩, rfl⟩
  · exact absurd hv hv'

/-- **Each stub takes the stack as the processor leaves it.** -/
theorem interrupt_resumes {addFlags : UInt32 → UInt32 → UInt32 → UInt32}
    (h : StubsApart addr interruptHandler) (k : UInt8 × UInt32) :
    Resumes addFlags addr (kernelEnter addr interruptHandler) (kernelCode addr interruptHandler) 60
      (CallsHandler interruptHandler) k := by
  intro s s₁ hroom henter
  obtain ⟨hv, hcode, hreg, hmem, -, -⟩ := kernelEnter_eq h henter
  have hcontext (limit : ℕ) : ShowsWords s.mem s.cpu.esp.toNat limit
      (((s.push s.cpu.eflags).push s.cpu.cs.toUInt32).push s.cpu.eip)
      ⟨s.cpu.down.down.down, [s.cpu.eip, s.cpu.cs.toUInt32, s.cpu.eflags]⟩ := by
    have hnil : ShowsWords s.mem s.cpu.esp.toNat limit s ⟨s.cpu, []⟩ :=
      ⟨rfl, by simp, trivial, fun _ _ _ => rfl⟩
    exact ((hnil.push (by simp; omega) _).push (by simp; omega) _).push (by simp; omega) _
  have hdown (c : Processor) (r : Register) (hr : r ≠ .esp) : c.down.reg r = c.reg r :=
    Function.update_of_ne hr _ _
  rw [hcode, interruptHandlerStub]
  rw [pushContext] at hreg hmem
  by_cases herr : pushesErrorCode k.1 = true
  · -- the processor has pushed the error code
    rw [if_pos ((pushesErrorCode_iff k.1 hv).1 herr)]
    rw [if_pos herr, ← show errorCodeOf k = k.2 from if_pos herr] at hreg hmem
    refine ⟨⟨s₁.cpu, [errorCodeOf k, s.cpu.eip, s.cpu.cs.toUInt32, s.cpu.eflags]⟩, fun limit => ?_,
      by simp; omega, _, rfl, leads_common hroom (fun r hr => ?_) ?_⟩
    · have hpushed := ((hcontext limit).push (by simp; omega) (errorCodeOf k)).withCpu
        (c := s₁.cpu) (congrFun hreg .esp)
      rwa [← hmem] at hpushed
    · refine (hdown _ r hr).trans ((congrFun hreg r).trans ((hdown _ r hr).trans ?_))
      exact (hdown _ r hr).trans ((hdown _ r hr).trans (hdown _ r hr))
    · have hesp : s₁.cpu.esp = s.cpu.down.down.down.down.esp := congrFun hreg .esp
      simp only [Processor.esp_goto, Processor.esp_down] at hesp ⊢
      rw [hesp]
      grind
  · -- the stub pushes a zero in its place
    rw [if_neg (mt (pushesErrorCode_iff k.1 hv).2 herr)]
    rw [if_neg herr] at hreg hmem
    refine ⟨⟨s₁.cpu, [s.cpu.eip, s.cpu.cs.toUInt32, s.cpu.eflags]⟩, fun limit => ?_, ?_⟩
    · have hpushed := (hcontext limit).withCpu (c := s₁.cpu) (congrFun hreg .esp)
      rwa [← hmem] at hpushed
    · rw [noErrorCodeHandler, ← show errorCodeOf k = 0 from if_neg herr]
      refine ⟨by simp; omega, _, rfl, by simp; omega, _, rfl, leads_common hroom (fun r hr => ?_) ?_⟩
      · refine (hdown _ r hr).trans ((hdown _ r hr).trans ((congrFun hreg r).trans ?_))
        exact (hdown _ r hr).trans ((hdown _ r hr).trans (hdown _ r hr))
      · have hesp : s₁.cpu.esp = s.cpu.down.down.down.esp := congrFun hreg .esp
        simp only [Processor.esp_goto, Processor.esp_down] at hesp ⊢
        rw [hesp]
        grind

/-! ### What `interrupt_handler` is called with -/

/-- `struct cpu_state`. -/
structure CpuState where
  edi : UInt32
  esi : UInt32
  ebp : UInt32
  edx : UInt32
  ecx : UInt32
  ebx : UInt32
  eax : UInt32
  esp : UInt32

/-- `struct stack_state`. -/
structure StackState where
  errorCode : UInt32
  eip : UInt32
  cs : UInt32
  eflags : UInt32

/-- Argument word `i` of a function that has just been called. -/
def argumentWord (s : Machine) (i : ℕ) : UInt32 := .ofNat (s.mem.getLE (s.cpu.esp.toNat + 4 * (i + 1)) 4)

/-- The parameters `cpu`, `interrupt` and `stack` of `interrupt_handler`. -/
def handlerArguments (s : Machine) : CpuState × UInt32 × StackState :=
  let word := argumentWord s
  (⟨word 0, word 1, word 2, word 3, word 4, word 5, word 6, word 7⟩, word 8, ⟨word 9, word 10, word 11, word 12⟩)

theorem argumentWord_eq {m₀ : ByteMemory} {base limit : ℕ} {s : Machine} {c : Processor} {back : UInt32}
    {ws : List UInt32} (h : ShowsWords m₀ base limit s ⟨c, back :: ws⟩) {i : ℕ} (hi : i < ws.length) :
    argumentWord s i = ws[i] := by
  have hholds := h.framed.holds.drop (i + 1) (by simp; omega)
  dsimp only at hholds
  rw [List.drop_succ_cons, List.drop_eq_getElem_cons hi] at hholds
  rw [argumentWord, hholds.1]
  exact UInt32.ofNat_toNat

theorem handlerArguments_eq {m₀ : ByteMemory} {base limit : ℕ} {s : Machine} {c c₀ : Processor}
    {back v errorCode : UInt32}
    (h : ShowsWords m₀ base limit s ⟨c, back :: savedWords c₀ v errorCode⟩) :
    handlerArguments s =
      (⟨c₀.reg .edi, c₀.reg .esi, c₀.reg .ebp, c₀.reg .edx, c₀.reg .ecx, c₀.reg .ebx, c₀.reg .eax, c₀.esp - 12⟩, v,
        ⟨errorCode, c₀.eip, c₀.cs.toUInt32, c₀.eflags⟩) := by
  have hword (i : ℕ) (hi : i < 13) : argumentWord s i = (savedWords c₀ v errorCode)[i] :=
    argumentWord_eq h hi
  rw [handlerArguments, hword 0 (by decide), hword 1 (by decide), hword 2 (by decide), hword 3 (by decide), hword 4 (by decide),
    hword 5 (by decide), hword 6 (by decide), hword 7 (by decide), hword 8 (by decide), hword 9 (by decide),
    hword 10 (by decide), hword 11 (by decide), hword 12 (by decide)]
  rfl

/-- **Interrupts are transparent.** With gates and stubs as the kernel sets them up, an interrupt of any vector
that has a gate gets to its stub, the stub calls `interrupt_handler` with the interrupted registers, the
vector, and the error code and the rest that the processor pushed; and when it is over the program
goes on with the registers, the flags and the stack it had. Other interrupts may come in between, at any
instruction and inside each other, if only the C code keeps to its own part of the stack. -/
theorem interrupt_transparent {addFlags : UInt32 → UInt32 → UInt32 → UInt32}
    {work : ℕ → Machine → Machine → Prop} {limit : ℕ} (hstubs : StubsApart addr interruptHandler)
    (hwork : KeepsFrame limit work) {k : UInt8 × UInt32} {s s₁ s' : Machine} (hroom : 60 ≤ s.cpu.esp.toNat)
    (hlimit : s.cpu.esp.toNat ≤ limit) (henter : kernelEnter addr interruptHandler k s = some s₁)
    (h : KernelExecutes addr interruptHandler addFlags work
      (.asm (kernelCode addr interruptHandler k)) s₁ s') :
    k.1 ∈ gateVectors ∧ s₁.cpu.eip = stubAddress addr interruptHandler k.1 ∧
      kernelCode addr interruptHandler k = interruptHandlerStub interruptHandler k.1 ∧
      (∃ s₂ post, s₂.cpu.eip = interruptHandler ∧
        handlerArguments s₂ =
          (⟨s.cpu.reg .edi, s.cpu.reg .esi, s.cpu.reg .ebp, s.cpu.reg .edx, s.cpu.reg .ecx, s.cpu.reg .ebx,
            s.cpu.reg .eax, s.cpu.esp - 12⟩, k.1.toUInt32,
            ⟨errorCodeOf k, s.cpu.eip, s.cpu.cs.toUInt32, s.cpu.eflags⟩) ∧
        KernelExecutes addr interruptHandler addFlags work (.inCall s₂.cpu.esp.toNat post) s₂ s') ∧
      s.SameUpTo limit s' := by
  have hresumes (k : UInt8 × UInt32) : Resumes addFlags addr (kernelEnter addr interruptHandler)
      (kernelCode addr interruptHandler) 60 (CallsHandler interruptHandler) k := interrupt_resumes hstubs k
  obtain ⟨hv, hcode, -, -, heip, -⟩ := kernelEnter_eq hstubs henter
  refine ⟨hv, heip, hcode, ?_, h.transparent hresumes hwork hroom hlimit henter⟩
  obtain ⟨a, hshows, hleads⟩ := hresumes k s s₁ hroom henter
  have hcalls : ∃ i ∈ kernelCode addr interruptHandler k, i.IsCall := by
    rw [hcode, interruptHandlerStub]
    refine ⟨.call interruptHandler, ?_, trivial⟩
    split_ifs
    all_goals simp [errorCodeHandler, noErrorCodeHandler, commonInterruptHandler]
  obtain ⟨f, ws, s₂, post, ⟨rfl, rfl⟩, hwords, heip₂, hrest⟩ :=
    h.reaches_call hresumes hwork hlimit (UInt32.toNat_lt _) (hshows limit) hleads hcalls
  exact ⟨s₂, post, heip₂, handlerArguments_eq hwords, hrest⟩

/-- Stubs one after the other by their numbers. -/
def someAddresses : List Instr → UInt32
  | .pushImm _ :: .pushImm n :: _ => 0x100000 + 16 * n
  | .pushImm n :: _ => 0x100000 + 16 * n
  | _ => 0

/-- A program with a stack of 4096 bytes. -/
def someMachine : Machine := ⟨⟨fun r => if r = .esp then 4096 else 7, 0x200000, 0x08, 0x202⟩, fun _ => 0⟩

/-- A function that does nothing. -/
def idle (_ : ℕ) (s s' : Machine) : Prop := s' = s

/-- A page fault, and the keyboard before the first instruction of its stub. -/
theorem interrupt_transparent_keyboardInPageFault :
    ∃ s₁ s', kernelEnter someAddresses 0x101000 (14, 2) someMachine = some s₁ ∧
      KernelExecutes someAddresses 0x101000 (fun eflags _ _ => eflags) idle
        (.asm (kernelCode someAddresses 0x101000 (14, 2))) s₁ s' ∧
      someMachine.SameUpTo 4096 s' := by
  have hstubs : StubsApart someAddresses 0x101000 := by
    unfold StubsApart
    decide +kernel
  have hwork : KeepsFrame 4096 idle := by
    rintro b s s' rfl hesp
    exact ⟨hesp, fun _ _ _ => rfl⟩
  obtain ⟨s₁, hs₁, hesp₁⟩ := exists_kernelEnter (a := someAddresses) (f := 0x101000) (k := (14, 2)) (by decide)
    someMachine
  obtain ⟨s₂, hs₂, -⟩ := exists_kernelEnter (a := someAddresses) (f := 0x101000) (k := (33, 0)) (by decide) s₁
  obtain ⟨s₃, hserved⟩ := exists_executes (kernelCode someAddresses 0x101000 (33, 0)) s₂
  obtain ⟨s', hrest⟩ := exists_executes (kernelCode someAddresses 0x101000 (14, 2)) s₃
  have hroom : 60 ≤ s₁.cpu.esp.toNat := by
    rw [hesp₁]
    decide
  have h : KernelExecutes someAddresses 0x101000 (fun eflags _ _ => eflags) idle
      (.asm (kernelCode someAddresses 0x101000 (14, 2))) s₁ s' := .interrupt (33, 0) hroom hs₂ hserved hrest
  exact ⟨s₁, s', hs₁, h, (interrupt_transparent hstubs hwork (by decide) (by decide) hs₁ h).2.2.2.2⟩

end Kernel

end LittleLinux
