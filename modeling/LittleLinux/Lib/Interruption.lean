import LittleLinux.Lib.StackMachine

/-!
# Code that can be interrupted anywhere

`Executes` runs a list of instructions while interrupts of some kinds come between any two of them, also inside
the function that the code calls and inside the code of other interrupts. Nothing is known of the
function but that it leaves the stack above its own frame alone.

`Leads` runs the list on the words of the stack, with no interrupts. If the code of every kind of
interrupt leads back to what it was entered from, then every interrupt is transparent
(`Executes.transparent`), whatever comes in between.
-/

namespace LittleLinux

/-- Where an execution is: before these instructions, or in the function called from an address of the
stack, with these instructions to return to. -/
inductive Position where
  | asm (is : List Instr)
  | inCall (b : ℕ) (is : List Instr)

def Instr.IsCall : Instr → Prop
  | .call _ => True
  | _ => False

universe u

section Interruption

variable (addFlags : UInt32 → UInt32 → UInt32 → UInt32)
-- where the assembler put the instructions
variable (addr : List Instr → UInt32)

/-- Running the instructions on the words pushed since `base` leads to a state of `Q`, whatever the
called function does to the registers, and a function is called with words of `P`. -/
def Leads (base : ℕ) (P : UInt32 → List UInt32 → Prop) (Q : Stacked → Prop) : List Instr → Stacked → Prop
  | [], a => Q a
  | .call f :: is, a => 4 * a.words.length + 4 ≤ base ∧ P f a.words ∧
    ∀ c : Processor, c.esp = a.cpu.esp - 4 → Leads base P Q is ⟨c.up.goto (addr is), a.words⟩
  | i :: is, a => 4 * a.words.length + 4 ≤ base ∧
    ∃ a', i.stackExec addFlags base (addr is) a = some a' ∧ Leads base P Q is a'

variable {κ : Type u}
-- what the processor does when an interrupt of a kind comes, and the code for it
variable (enter : κ → Machine → Option Machine) (code : κ → List Instr)
-- what a called function may do, by the address of its frame
variable (work : ℕ → Machine → Machine → Prop) (room : ℕ)

/-- An execution from a position to the end of its code. -/
inductive Executes : Position → Machine → Machine → Prop
  | done (s : Machine) : Executes (.asm []) s s
  | instr {i : Instr} {is : List Instr} {s s' : Machine} (hi : ¬i.IsCall)
      (h : Executes (.asm is) (i.exec addFlags (addr is) s) s') : Executes (.asm (i :: is)) s s'
  | call {f : UInt32} {is : List Instr} {s s' : Machine}
      (h : Executes (.inCall (s.cpu.esp - 4).toNat is)
        ((Instr.call f).exec addFlags (addr is) s) s') : Executes (.asm (.call f :: is)) s s'
  | work {b : ℕ} {is : List Instr} {s s₁ s' : Machine} (hwork : work b s s₁)
      (h : Executes (.inCall b is) s₁ s') : Executes (.inCall b is) s s'
  | ret {b : ℕ} {is : List Instr} {s s' : Machine} (hb : s.cpu.esp.toNat = b)
      (h : Executes (.asm is) (Instr.ret.exec addFlags (addr is) s) s') : Executes (.inCall b is) s s'
  | interrupt {pos : Position} {s s₁ s₂ s' : Machine} (k : κ) (hroom : room ≤ s.cpu.esp.toNat)
      (henter : enter k s = some s₁) (hserve : Executes (.asm (code k)) s₁ s₂)
      (h : Executes pos s₂ s') : Executes pos s s'

/-- The same processor, and the same stack from its top up to `limit`. -/
structure Machine.SameUpTo (limit : ℕ) (s s' : Machine) : Prop where
  cpu : s'.cpu = s.cpu
  stack : ∀ x, s.cpu.esp.toNat ≤ x → x < limit → s'.mem x = s.mem x

/-- A function keeps to its own part of the stack: below the address of its frame. -/
def KeepsFrame (limit : ℕ) (work : ℕ → Machine → Machine → Prop) : Prop :=
  ∀ b s s', work b s s' → s.cpu.esp.toNat ≤ b →
    s'.cpu.esp.toNat ≤ b ∧ ∀ x, b ≤ x → x < limit → s'.mem x = s.mem x

/-- The code of an interrupt leads back to where it came, and it calls functions with words of `P`. -/
def Resumes (P : κ → Processor → UInt32 → List UInt32 → Prop) (k : κ) : Prop :=
  ∀ s s₁, room ≤ s.cpu.esp.toNat → enter k s = some s₁ →
    ∃ a, (∀ limit, ShowsWords s.mem s.cpu.esp.toNat limit s₁ a) ∧
      Leads addFlags addr s.cpu.esp.toNat (P k s.cpu) (fun a => a.cpu = s.cpu ∧ a.words = []) (code k) a

end Interruption

variable {addFlags : UInt32 → UInt32 → UInt32 → UInt32} {addr : List Instr → UInt32} {κ : Type u}
  {enter : κ → Machine → Option Machine} {code : κ → List Instr} {work : ℕ → Machine → Machine → Prop}
  {room limit base : ℕ} {m₀ : ByteMemory} {s s' : Machine} {a : Stacked} {P : UInt32 → List UInt32 → Prop}
  {Q : Stacked → Prop} {calls : κ → Processor → UInt32 → List UInt32 → Prop}

theorem leads_cons {i : Instr} {is : List Instr} (hi : ¬i.IsCall) :
    Leads addFlags addr base P Q (i :: is) a ↔ 4 * a.words.length + 4 ≤ base ∧
      ∃ a', i.stackExec addFlags base (addr is) a = some a' ∧ Leads addFlags addr base P Q is a' := by
  cases i with
  | call f => exact absurd trivial hi
  | _ => exact Iff.rfl

/-! ### Runs of pushes and pops -/

/-- Registers but the stack pointer are pushed. -/
theorem leads_pushes {is : List Instr} (f : Register → UInt32) :
    ∀ (rs : List Register) {c : Processor} {ws : List UInt32}, (∀ r ∈ rs, r ≠ .esp) →
      (∀ r, r ≠ .esp → c.reg r = f r) → 4 * (ws.length + rs.length) ≤ base →
      (∀ c, Leads addFlags addr base P Q is ⟨c, (rs.map f).reverse ++ ws⟩) →
      Leads addFlags addr base P Q (rs.map .push ++ is) ⟨c, ws⟩
  | [], c, ws, _, _, _, h => h c
  | r :: rs, c, ws, hrs, hf, hroom, h => by
    rw [List.length_cons] at hroom
    have hr : r ≠ .esp := hrs r List.mem_cons_self
    refine ⟨by dsimp only; omega, _, rfl, leads_pushes f rs (fun r hr => hrs r (List.mem_cons_of_mem _ hr)) ?_ ?_ ?_⟩
    · intro r' hr'
      rw [← hf r' hr']
      exact Function.update_of_ne hr' _ _
    · rw [List.length_cons]
      omega
    · intro c'
      rw [hf r hr]
      simpa using h c'

/-- Registers but the stack pointer are popped. -/
theorem leads_pops {is : List Instr} (f : Register → UInt32) {ws : List UInt32} :
    ∀ (rs : List Register) {c : Processor} (done : List Register), (∀ r ∈ rs, r ≠ .esp) →
      (∀ r ∈ done, r ≠ .esp → c.reg r = f r) → 4 * (ws.length + rs.length) + 4 ≤ base →
      (∀ c : Processor, (∀ r, r ∈ done ∨ r ∈ rs → r ≠ .esp → c.reg r = f r) →
        Leads addFlags addr base P Q is ⟨c, ws⟩) →
      Leads addFlags addr base P Q (rs.map .pop ++ is) ⟨c, rs.map f ++ ws⟩
  | [], c, _, _, hdone, _, h => h c fun r hr => hdone r (hr.resolve_right List.not_mem_nil)
  | r :: rs, c, done, hrs, hdone, hroom, h => by
    rw [List.length_cons] at hroom
    have hr : r ≠ .esp := hrs r List.mem_cons_self
    refine ⟨by simp; omega, _, if_neg hr, leads_pops f rs (r :: done)
      (fun r hr => hrs r (List.mem_cons_of_mem _ hr)) ?_ (by omega) ?_⟩
    · intro r' hr' hesp
      rcases eq_or_ne r' r with rfl | hne
      · exact Function.update_self r' _ _
      · rw [← hdone r' ((List.mem_cons.1 hr').resolve_left hne) hesp]
        exact (Function.update_of_ne hne _ _).trans (Function.update_of_ne hesp _ _)
    · intro c' hc'
      refine h c' fun r' hr' => hc' r' ?_
      simp only [List.mem_cons] at hr' ⊢
      tauto

/-- What an execution from a position does to what the stack shows. -/
def Position.Follows (addFlags : UInt32 → UInt32 → UInt32 → UInt32) (addr : List Instr → UInt32)
    (limit : ℕ) (s s' : Machine) : Position → Prop
  | .asm is => ∀ m₀ base P Q a, base ≤ limit → base < 2 ^ 32 → ShowsWords m₀ base limit s a →
    Leads addFlags addr base P Q is a → ∃ a', ShowsWords m₀ base limit s' a' ∧ Q a'
  | .inCall b is => ∀ m₀ base P Q ws, base ≤ limit → base < 2 ^ 32 → s.cpu.esp.toNat ≤ b →
    Framed m₀ base limit b (addr is :: ws) s.mem →
    (∀ c : Processor, c.esp.toNat = b → Leads addFlags addr base P Q is ⟨c.up.goto (addr is), ws⟩) →
    ∃ a', ShowsWords m₀ base limit s' a' ∧ Q a'

/-- An interruption changes nothing of what follows. -/
theorem Position.Follows.of_sameUpTo {s₂ : Machine} {pos : Position}
    (hsame : s.cpu.esp.toNat ≤ limit → s.SameUpTo limit s₂) (h : pos.Follows addFlags addr limit s₂ s') :
    pos.Follows addFlags addr limit s s' := by
  cases pos with
  | asm is =>
    intro m₀ base P Q a hlimit hbase hshows
    have hesp := hshows.framed.length
    have hs := hsame (by omega)
    refine h m₀ base P Q a hlimit hbase ⟨hs.cpu.trans hshows.cpu, ?_⟩
    rw [hs.cpu]
    exact hshows.framed.congr hs.stack hlimit
  | inCall b is =>
    intro m₀ base P Q ws hlimit hbase hesp hframed
    have hb := hframed.length
    have hs := hsame (by omega)
    refine h m₀ base P Q ws hlimit hbase (by rwa [hs.cpu]) ?_
    exact hframed.congr (fun x hx => hs.stack x (hesp.trans hx)) hlimit

/-- What follows from a position, by induction on the execution: every interrupt served on the way
leads back to where it came. -/
theorem Executes.follows {pos : Position} (hresumes : ∀ k, Resumes addFlags addr enter code room calls k)
    (hwork : KeepsFrame limit work) (h : Executes addFlags addr enter code work room pos s s') :
    pos.Follows addFlags addr limit s s' := by
  induction h with
  | done s => exact fun m₀ base P Q a _ _ hshows hleads => ⟨a, hshows, hleads⟩
  | instr hi _ ih =>
    intro m₀ base P Q a hlimit hbase hshows hleads
    obtain ⟨hroom, a', hexec, hleads⟩ := (leads_cons hi).1 hleads
    exact ih m₀ base P Q a' hlimit hbase (hshows.exec hroom hbase hexec) hleads
  | @call f is s s' _ ih =>
    intro m₀ base P Q a hlimit hbase hshows hleads
    obtain ⟨hroom, -, hleads⟩ := hleads
    have hpushed := (hshows.push hroom (addr is)).goto f
    refine ih m₀ base P Q a.words hlimit hbase ?_ ?_ fun c hc => hleads c ?_
    · rw [Instr.exec, Machine.goto, Machine.push, Processor.esp_goto, Processor.esp_down]
    · have hframed := hpushed.framed
      rwa [Machine.goto, Machine.push, Processor.esp_goto, Processor.esp_down] at hframed
    · rw [← hshows.cpu, ← UInt32.toNat_inj, hc]
  | work hstep _ ih =>
    intro m₀ base P Q ws hlimit hbase hesp hframed hleads
    obtain ⟨hesp', hmem⟩ := hwork _ _ _ hstep hesp
    exact ih m₀ base P Q ws hlimit hbase hesp' (hframed.congr hmem hlimit) hleads
  | @ret b is s s' hb _ ih =>
    intro m₀ base P Q ws hlimit hbase hesp hframed hleads
    have hshows : ShowsWords m₀ base limit s ⟨s.cpu, addr is :: ws⟩ := ⟨rfl, by rwa [hb]⟩
    exact ih m₀ base P Q _ hlimit hbase (hshows.ret hbase (addr is)) (hleads s.cpu hb)
  | interrupt k hroom henter _ _ ihserve ih =>
    obtain ⟨a, hshows, hleads⟩ := hresumes k _ _ hroom henter
    refine ih.of_sameUpTo fun hlimit => ?_
    obtain ⟨a', hshows', hcpu, hwords⟩ := ihserve _ _ _ _ a hlimit (UInt32.toNat_lt _) (hshows limit) hleads
    exact ⟨hshows'.cpu.trans hcpu, hshows'.framed.above⟩

/-- **Every interrupt is transparent**: when its code has run, whatever interrupts came in
between, the processor and the stack are what they were. -/
theorem Executes.transparent (hresumes : ∀ k, Resumes addFlags addr enter code room calls k)
    (hwork : KeepsFrame limit work) {k : κ} {s₁ : Machine} (hroom : room ≤ s.cpu.esp.toNat)
    (hlimit : s.cpu.esp.toNat ≤ limit) (henter : enter k s = some s₁)
    (h : Executes addFlags addr enter code work room (.asm (code k)) s₁ s') : s.SameUpTo limit s' := by
  obtain ⟨a, hshows, hleads⟩ := hresumes k s s₁ hroom henter
  obtain ⟨a', hshows', hcpu, hwords⟩ := h.follows hresumes hwork _ _ _ _ a hlimit (UInt32.toNat_lt _)
    (hshows limit) hleads
  exact ⟨hshows'.cpu.trans hcpu, hshows'.framed.above⟩

/-- An execution of code that calls a function gets to the function, with words of `P`. -/
theorem Executes.reaches_call (hresumes : ∀ k, Resumes addFlags addr enter code room calls k)
    (hwork : KeepsFrame limit work) {is : List Instr}
    (h : Executes addFlags addr enter code work room (.asm is) s s') (hlimit : base ≤ limit)
    (hbase : base < 2 ^ 32) (hshows : ShowsWords m₀ base limit s a) (hleads : Leads addFlags addr base P Q is a)
    (hcall : ∃ i ∈ is, i.IsCall) :
    ∃ f ws s₂ post, P f ws ∧ ShowsWords m₀ base limit s₂ ⟨s₂.cpu, addr post :: ws⟩ ∧ s₂.cpu.eip = f ∧
      Executes addFlags addr enter code work room (.inCall s₂.cpu.esp.toNat post) s₂ s' := by
  generalize hpos : Position.asm is = pos at h
  -- induction on the execution; an interrupt returns to the same processor and stack, so the
  -- instruction after it finds the frame the stub has built
  induction h generalizing is a with
  | done s =>
    obtain rfl := Position.asm.inj hpos
    exact absurd hcall (by simp)
  | @instr i is' s s' hi _ ih =>
    obtain rfl := Position.asm.inj hpos
    obtain ⟨hroom, a', hexec, hleads⟩ := (leads_cons hi).1 hleads
    obtain ⟨j, hj, hcall⟩ := hcall
    rcases List.mem_cons.1 hj with rfl | hj
    · exact absurd hcall hi
    · exact ih (hshows.exec hroom hbase hexec) hleads ⟨j, hj, hcall⟩ rfl
  | @call f is' s s' hrest _ =>
    obtain rfl := Position.asm.inj hpos
    obtain ⟨hroom, hP, -⟩ := hleads
    have hpushed := (hshows.push hroom (addr is')).goto f
    refine ⟨f, a.words, _, is', hP, ⟨rfl, hpushed.framed⟩, rfl, ?_⟩
    rw [Machine.goto, Machine.push, Processor.esp_goto, Processor.esp_down]
    exact hrest
  | work => exact absurd hpos (by simp)
  | ret => exact absurd hpos (by simp)
  | @interrupt pos s s₁ s₂ s' k hroom henter hserve _ _ ih =>
    have hesp := hshows.framed.length
    have hsame := hserve.transparent hresumes hwork hroom (by omega) henter
    refine ih ⟨hsame.cpu.trans hshows.cpu, ?_⟩ hleads hcall hpos
    rw [hsame.cpu]
    exact hshows.framed.congr hsame.stack hlimit

/-- With nothing to do for the called functions, an execution is there. -/
theorem exists_executes (is : List Instr) (s : Machine) :
    ∃ s', Executes addFlags addr enter code work room (.asm is) s s' := by
  induction is generalizing s with
  | nil => exact ⟨s, .done s⟩
  | cons i is ih =>
    by_cases hi : i.IsCall
    · cases i with
      | call f =>
        obtain ⟨s', h⟩ := ih (Instr.ret.exec addFlags (addr is) ((Instr.call f).exec addFlags (addr is) s))
        refine ⟨s', .call (.ret ?_ h)⟩
        rw [Instr.exec, Machine.goto, Machine.push, Processor.esp_goto, Processor.esp_down]
      | _ => exact absurd hi id
    · obtain ⟨s', h⟩ := ih (i.exec addFlags (addr is) s)
      exact ⟨s', .instr hi h⟩

end LittleLinux
