import LittleLinux.Lib.ByteMemory

/-!
# A processor with its stack in memory

The registers of a 32-bit processor and the instructions that save and restore them: pushes, pops, an
addition to the word on top, a call, the two returns. `Instr.exec` runs an instruction on a memory of
bytes, `Instr.stackExec` on the list of the words pushed since an address `base`.

`Framed` says that a memory holds these words below `base` and is unchanged between `base` and
`limit`; `ShowsWords.exec` is that the two ways of running an instruction agree. What a list of instructions
leaves is then read off the list of words (`Leads`).
-/

namespace LittleLinux

/-- The general registers. -/
inductive Register where
  | eax | ecx | edx | ebx | esp | ebp | esi | edi
  deriving DecidableEq

/-- What a program that is stopped has to be resumed with. -/
@[ext]
structure Processor where
  reg : Register → UInt32
  eip : UInt32
  cs : UInt16
  eflags : UInt32

structure Machine where
  cpu : Processor
  mem : ByteMemory

inductive Instr where
  | pushImm (v : UInt32)
  | push (r : Register)
  | pop (r : Register)
  /-- `add dword [esp], v`. -/
  | addTop (v : UInt32)
  | call (f : UInt32)
  | ret
  | iret
  deriving DecidableEq

namespace Processor

def esp (c : Processor) : UInt32 := c.reg .esp

def set (c : Processor) (r : Register) (v : UInt32) : Processor :=
  { c with reg := Function.update c.reg r v }

/-- Go on at an address. -/
def goto (c : Processor) (a : UInt32) : Processor := { c with eip := a }

/-- The stack pointer after a word is pushed, and after one is popped. -/
def down (c : Processor) : Processor := c.set .esp (c.esp - 4)
def up (c : Processor) : Processor := c.set .esp (c.esp + 4)

@[simp] theorem esp_goto (c : Processor) (a : UInt32) : (c.goto a).esp = c.esp := rfl

@[simp] theorem esp_set_esp (c : Processor) (v : UInt32) : (c.set .esp v).esp = v := by
  simp [esp, set]

@[simp] theorem esp_down (c : Processor) : c.down.esp = c.esp - 4 := esp_set_esp c _

@[simp] theorem esp_up (c : Processor) : c.up.esp = c.esp + 4 := esp_set_esp c _

theorem esp_set_of_ne (c : Processor) {r : Register} (h : r ≠ .esp) (v : UInt32) : (c.set r v).esp = c.esp :=
  Function.update_of_ne h.symm _ _

end Processor

namespace Machine

/-- Push a word. -/
def push (s : Machine) (v : UInt32) : Machine where
  cpu := s.cpu.down
  mem := s.mem.putLE (s.cpu.esp - 4).toNat 4 v.toNat

/-- The word on top. -/
def top (s : Machine) : UInt32 := .ofNat (s.mem.getLE s.cpu.esp.toNat 4)

/-- Take the word on top away. -/
def drop (s : Machine) : Machine := { s with cpu := s.cpu.up }

def goto (s : Machine) (a : UInt32) : Machine := { s with cpu := s.cpu.goto a }

end Machine

section Exec

-- what an addition leaves in the flags
variable (addFlags : UInt32 → UInt32 → UInt32 → UInt32)

/-- What an instruction does; the one after it is at `next`. -/
def Instr.exec (next : UInt32) : Instr → Machine → Machine
  | .pushImm v, s => (s.push v).goto next
  | .push r, s => (s.push (s.cpu.reg r)).goto next
  -- the stack pointer moves first: a popped stack pointer stays
  | .pop r, s => ⟨(s.cpu.up.set r s.top).goto next, s.mem⟩
  | .addTop v, s =>
    ⟨{ s.cpu.goto next with eflags := addFlags s.cpu.eflags s.top v },
      s.mem.putLE s.cpu.esp.toNat 4 (s.top + v).toNat⟩
  | .call f, s => (s.push next).goto f
  | .ret, s => s.drop.goto s.top
  | .iret, s =>
    ⟨{ s.drop.drop.drop.cpu with
        eip := s.top
        cs := s.drop.top.toUInt16
        eflags := s.drop.drop.top }, s.mem⟩

/-! ### The words on the stack -/

/-- A processor and the words on its stack, the top one first. -/
structure Stacked where
  cpu : Processor
  words : List UInt32

/-- What an instruction does to the words pushed since `base`. A popped stack pointer keeps the words
above it. -/
def Instr.stackExec (base : ℕ) (next : UInt32) : Instr → Stacked → Option Stacked
  | .pushImm v, ⟨c, ws⟩ => some ⟨c.down.goto next, v :: ws⟩
  | .push r, ⟨c, ws⟩ => some ⟨c.down.goto next, c.reg r :: ws⟩
  | .pop r, ⟨c, w :: ws⟩ =>
    if r = .esp then
      if w.toNat + 4 * ((base - w.toNat) / 4) = base ∧ (base - w.toNat) / 4 ≤ ws.length then
        some ⟨(c.set .esp w).goto next, ws.drop (ws.length - (base - w.toNat) / 4)⟩
      else none
    else some ⟨(c.up.set r w).goto next, ws⟩
  | .addTop v, ⟨c, w :: ws⟩ =>
    some ⟨{ c.goto next with eflags := addFlags c.eflags w v }, (w + v) :: ws⟩
  | .call f, ⟨c, ws⟩ => some ⟨c.down.goto f, next :: ws⟩
  | .ret, ⟨c, w :: ws⟩ => some ⟨c.up.goto w, ws⟩
  | .iret, ⟨c, eip :: cs :: eflags :: ws⟩ =>
    some ⟨{ c.up.up.up with eip := eip, cs := cs.toUInt16, eflags := eflags }, ws⟩
  | _, _ => none

end Exec

/-- The words `ws` stand at `a`, the first one lowest. -/
def HoldsWords (m : ByteMemory) : ℕ → List UInt32 → Prop
  | _, [] => True
  | a, w :: ws => m.getLE a 4 = w.toNat ∧ HoldsWords m (a + 4) ws

/-- The words `ws` fill the stack from `a` up to `base`, and from there to `limit` the memory is still
`m₀`. -/
structure Framed (m₀ : ByteMemory) (base limit a : ℕ) (ws : List UInt32) (m : ByteMemory) : Prop where
  length : a + 4 * ws.length = base
  holds : HoldsWords m a ws
  above : ∀ x, base ≤ x → x < limit → m x = m₀ x

variable {m m' m₀ : ByteMemory} {a base limit : ℕ} {ws : List UInt32} {v w : UInt32}

theorem HoldsWords.congr (h : HoldsWords m a ws) (hm : ∀ x, a ≤ x → x < a + 4 * ws.length → m' x = m x) :
    HoldsWords m' a ws := by
  induction ws generalizing a with
  | nil => trivial
  | cons w ws ih =>
    rw [List.length_cons] at hm
    refine ⟨?_, ih h.2 fun x h₁ h₂ => hm x (by omega) (by omega)⟩
    rw [ByteMemory.getLE_congr fun i hi => hm (a + i) (by omega) (by omega), h.1]

theorem HoldsWords.drop (h : HoldsWords m a ws) (k : ℕ) (hk : k ≤ ws.length) :
    HoldsWords m (a + 4 * k) (ws.drop k) := by
  induction k generalizing a ws with
  | zero => exact h
  | succ k ih =>
    cases ws with
    | nil => exact absurd hk (by simp)
    | cons w ws =>
      rw [show a + 4 * (k + 1) = a + 4 + 4 * k by omega, List.drop_succ_cons]
      exact ih h.2 (by rw [List.length_cons] at hk; omega)

theorem Framed.push (h : Framed m₀ base limit a ws m) (ha : 4 ≤ a) (v : UInt32) :
    Framed m₀ base limit (a - 4) (v :: ws) (m.putLE (a - 4) 4 v.toNat) where
  length := by
    rw [List.length_cons]
    have := h.length
    omega
  holds := by
    refine ⟨?_, ?_⟩
    · exact (ByteMemory.getLE_putLE _ _ _ _).trans (Nat.mod_eq_of_lt v.toNat_lt)
    · rw [show a - 4 + 4 = a by omega]
      exact h.holds.congr fun x hx _ => ByteMemory.putLE_of_notMem (by omega)
  above := fun x h₁ h₂ => by
    have := h.length
    rw [ByteMemory.putLE_of_notMem (by omega), h.above x h₁ h₂]

theorem Framed.drop (h : Framed m₀ base limit a ws m) (k : ℕ) (hk : k ≤ ws.length) :
    Framed m₀ base limit (a + 4 * k) (ws.drop k) m where
  length := by
    rw [List.length_drop]
    have := h.length
    omega
  holds := h.holds.drop k hk
  above := h.above

theorem Framed.tail (h : Framed m₀ base limit a (w :: ws) m) : Framed m₀ base limit (a + 4) ws m :=
  h.drop 1 (by simp)

theorem Framed.setTop (h : Framed m₀ base limit a (w :: ws) m) (v : UInt32) :
    Framed m₀ base limit a (v :: ws) (m.putLE a 4 v.toNat) :=
  h.tail.push (by omega) v

theorem Framed.congr (h : Framed m₀ base limit a ws m) (hm : ∀ x, a ≤ x → x < limit → m' x = m x)
    (hlimit : base ≤ limit) : Framed m₀ base limit a ws m' where
  length := h.length
  holds := by
    have := h.length
    exact h.holds.congr fun x h₁ h₂ => hm x h₁ (by omega)
  above := fun x h₁ h₂ => by
    have := h.length
    rw [hm x (by omega) h₂, h.above x h₁ h₂]

/-- The machine `s` has the processor and the words of `a`. -/
structure ShowsWords (m₀ : ByteMemory) (base limit : ℕ) (s : Machine) (a : Stacked) : Prop where
  cpu : s.cpu = a.cpu
  framed : Framed m₀ base limit s.cpu.esp.toNat a.words s.mem

section ShowsWords

variable {s : Machine} {a a' : Stacked} {c : Processor} {addFlags : UInt32 → UInt32 → UInt32 → UInt32}

theorem toNat_esp_up (h : c.esp.toNat + 4 < 2 ^ 32) : c.up.esp.toNat = c.esp.toNat + 4 := by
  rw [Processor.esp_up, UInt32.toNat_add]
  exact Nat.mod_eq_of_lt h

/-- The words are where the stack pointer is, whatever the rest of the processor is. -/
theorem ShowsWords.withCpu (h : ShowsWords m₀ base limit s a) (hc : c.esp = a.cpu.esp) :
    ShowsWords m₀ base limit ⟨c, s.mem⟩ ⟨c, a.words⟩ := by
  refine ⟨rfl, ?_⟩
  rw [hc, ← h.cpu]
  exact h.framed

theorem ShowsWords.push (h : ShowsWords m₀ base limit s a) (hroom : 4 * a.words.length + 4 ≤ base)
    (v : UInt32) : ShowsWords m₀ base limit (s.push v) ⟨a.cpu.down, v :: a.words⟩ := by
  have hesp : 4 ≤ s.cpu.esp.toNat := by
    have := h.framed.length
    omega
  have hdown : (s.cpu.esp - 4).toNat = s.cpu.esp.toNat - 4 := UInt32.toNat_sub_of_le _ _ hesp
  refine ⟨by rw [Machine.push, h.cpu], ?_⟩
  rw [Machine.push, Processor.esp_down, hdown]
  exact h.framed.push hesp v

theorem ShowsWords.goto (h : ShowsWords m₀ base limit s a) (next : UInt32) :
    ShowsWords m₀ base limit (s.goto next) ⟨a.cpu.goto next, a.words⟩ :=
  ⟨congrArg (Processor.goto · next) h.cpu, h.framed⟩

theorem ShowsWords.top (h : ShowsWords m₀ base limit s ⟨c, w :: ws⟩) : s.top = w := by
  rw [Machine.top, h.framed.holds.1]
  exact UInt32.ofNat_toNat

theorem ShowsWords.drop (h : ShowsWords m₀ base limit s ⟨c, w :: ws⟩) (hbase : base < 2 ^ 32) :
    ShowsWords m₀ base limit s.drop ⟨c.up, ws⟩ := by
  have hlength := h.framed.length
  rw [List.length_cons] at hlength
  refine ⟨by rw [Machine.drop, h.cpu], ?_⟩
  rw [Machine.drop, toNat_esp_up (by omega)]
  exact h.framed.tail

theorem ShowsWords.ret (h : ShowsWords m₀ base limit s ⟨c, w :: ws⟩) (hbase : base < 2 ^ 32) (next : UInt32) :
    ShowsWords m₀ base limit (Instr.ret.exec addFlags next s) ⟨c.up.goto w, ws⟩ := by
  rw [Instr.exec, h.top]
  exact ⟨congrArg (Processor.goto · w) (h.drop hbase).cpu, (h.drop hbase).framed⟩

/-- **An instruction does to the machine what it does to the words.** -/
theorem ShowsWords.exec {i : Instr} {next : UInt32} (h : ShowsWords m₀ base limit s a)
    (hroom : 4 * a.words.length + 4 ≤ base) (hbase : base < 2 ^ 32)
    (hexec : i.stackExec addFlags base next a = some a') :
    ShowsWords m₀ base limit (i.exec addFlags next s) a' := by
  obtain ⟨c, ws⟩ := a
  have hcpu : s.cpu = c := h.cpu
  cases i with
  | pushImm v =>
    obtain rfl := Option.some.inj hexec
    exact (h.push hroom v).goto next
  | push r =>
    obtain rfl := Option.some.inj hexec
    rw [Instr.exec, hcpu]
    exact (h.push hroom (c.reg r)).goto next
  | call f =>
    obtain rfl := Option.some.inj hexec
    exact (h.push hroom next).goto f
  | addTop v =>
    cases ws with
    | nil => exact absurd hexec (by simp [Instr.stackExec])
    | cons w ws =>
      obtain rfl := Option.some.inj hexec
      refine ⟨by rw [Instr.exec, hcpu, h.top], ?_⟩
      rw [Instr.exec, h.top]
      exact h.framed.setTop _
  | ret =>
    cases ws with
    | nil => exact absurd hexec (by simp [Instr.stackExec])
    | cons w ws =>
      obtain rfl := Option.some.inj hexec
      exact h.ret hbase next
  | iret =>
    rcases ws with _ | ⟨eip, _ | ⟨cs, _ | ⟨eflags, ws⟩⟩⟩
    iterate 3 exact absurd hexec (by simp [Instr.stackExec])
    obtain rfl := Option.some.inj hexec
    have h₁ := h.drop hbase
    have h₂ := h₁.drop hbase
    have h₃ := h₂.drop hbase
    rw [Instr.exec, h.top, h₁.top, h₂.top]
    exact ⟨by rw [h₃.cpu], h₃.framed⟩
  | pop r =>
    cases ws with
    | nil => exact absurd hexec (by simp [Instr.stackExec])
    | cons w ws =>
      have hup := h.drop hbase
      rw [Instr.stackExec] at hexec
      rw [Instr.exec, h.top]
      split_ifs at hexec with hr hkept
      · -- the words above the new top stay where they are
        obtain rfl := Option.some.inj hexec
        obtain ⟨hw, hn⟩ := hkept
        have hlength := h.framed.length
        dsimp only at hlength
        rw [List.length_cons] at hlength
        subst hr
        refine ⟨by simp [Processor.set, Processor.up, hcpu], ?_⟩
        rw [Processor.esp_goto, Processor.esp_set_esp]
        have hframed := hup.framed.drop (ws.length - (base - w.toNat) / 4) (Nat.sub_le _ _)
        rwa [Machine.drop, toNat_esp_up (by omega), show s.cpu.esp.toNat + 4 +
          4 * (ws.length - (base - w.toNat) / 4) = w.toNat by omega] at hframed
      · obtain rfl := Option.some.inj hexec
        refine ⟨by rw [hcpu], ?_⟩
        rw [Processor.esp_goto, Processor.esp_set_of_ne _ hr]
        exact hup.framed

end ShowsWords

end LittleLinux
