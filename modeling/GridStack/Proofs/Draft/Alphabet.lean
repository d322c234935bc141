import GridStack.Proofs.Draft.Assembly

/-!
# The instructions of a function

Which instructions the code of a function may contain, one by one (`Site.Admits`): what constants there
are, which labels are named, and which registers are read and written. `Site.Written` says that all
instructions of a block are of this kind. It holds of every piece that code is assembled from
(`Written.of_assembled`), and so of the code of a function (`FunctionCode.written`): what a single
instruction of a program can be is then a matter of cases.
-/

namespace GridStack

open Layout (room)

/-- The registers that code of a function reads and writes, besides the program counter. -/
def Site.Names (site : Site) (r : Int32) : Prop :=
  r = Register.base ∨ r = Register.scratch ∨ r ∈ Emit.window site

/-- The instructions that the code of a function may contain, when it may call functions of some names and
frames begin below a limit. -/
inductive Site.Admits (site : Site) (may : String → Prop) (limit : Nat) : Instr → Prop
  | marker (label : Label) : Admits site may limit (.marker label)
  | number {n : Int32} (low : 0 ≤ n.toInt) (high : n.toInt ≤ 65535) : Admits site may limit (.imm .const n)
  | offset {n : Int} (low : 0 ≤ n) (high : n < limit) : Admits site may limit (.imm .const (Int32.ofInt n))
  | own {label : Label} (own : site.Own label) : Admits site may limit (.constant (.label label))
  | entry {label : Label} (entry : site.Entry may label) : Admits site may limit (.constant (.label label))
  | push {r : Int32} (source : site.Names r) : Admits site may limit (.imm .push r)
  | pop {r : Int32} (dest : r = Register.pc ∨ site.Names r) : Admits site may limit (.imm .pop r)
  | copy {r s : Int32} (dest : site.Names r) (source : site.Names s) : Admits site may limit (.copy r s)
  | jumpIf : Admits site may limit (.imm .jumpIf Register.scratch)
  | plain {op : Opcode} (bare : op.arity = 0) (effect : op ≠ .noop) : Admits site may limit (.plain op)
  | halt (main : site.function.isMain = true) : Admits site may limit (.imm .const halt)

/-- Code that contains such instructions only. -/
def Site.Written (site : Site) (may : String → Prop) (limit : Nat) (block : List Instr) : Prop :=
  ∀ i ∈ block, site.Admits may limit i

/-- The numbers of the registers of variables. -/
theorem Register.toInt_ofVar {index : Nat} (low : index < 5) : (Register.ofVar index).toInt = 3 + index := by
  decide +revert

namespace Site

variable {site : Site} {may : String → Prop} {limit : Nat}

/-- A register that the code of a function names is not the program counter, when the variables have
registers. -/
theorem Names.range {r : Int32} (h : site.Names r) (few : site.function.vars.length ≤ maxVariables) :
    1 ≤ r.toInt ∧ r.toInt < 3 + site.function.vars.length := by
  rcases h with rfl | rfl | mem
  · exact ⟨by decide, by have base : Register.base.toInt = 1 := rfl; omega⟩
  · exact ⟨by decide, by have scratch : Register.scratch.toInt = 2 := rfl; omega⟩
  · obtain ⟨index, listed, rfl⟩ := List.mem_map.1 mem
    have inside := List.mem_range.1 listed
    have eq := Register.toInt_ofVar (Nat.lt_of_lt_of_le inside few)
    omega

/-- Functions of other names may be called as well. -/
theorem Admits.mono {may' : String → Prop} {i : Instr} (h : site.Admits may limit i)
    (imp : ∀ name, may name → may' name) : site.Admits may' limit i := by
  cases h with
  | marker label => exact .marker label
  | number low high => exact .number low high
  | offset low high => exact .offset low high
  | own own => exact .own own
  | entry entry =>
    obtain ⟨name, callee, called, found⟩ := entry
    exact .entry ⟨name, callee, imp name called, found⟩
  | push source => exact .push source
  | pop dest => exact .pop dest
  | copy dest source => exact .copy dest source
  | jumpIf => exact .jumpIf
  | plain bare effect => exact .plain bare effect
  | halt main => exact .halt main

namespace Written

variable {front back block : List Instr} {label label' : Label}

/-- No code. -/
theorem nil : site.Written may limit [] :=
  List.forall_mem_nil _

/-- Code that is put together from two pieces. -/
theorem append (h : site.Written may limit front) (h' : site.Written may limit back) :
    site.Written may limit (front ++ back) :=
  List.forall_mem_append.2 ⟨h, h'⟩

/-- A single instruction. -/
theorem single {i : Instr} (h : site.Admits may limit i) : site.Written may limit [i] :=
  List.forall_mem_singleton.2 h

/-- A jump to a label. -/
theorem jump (h : site.Admits may limit (.constant (.label label))) :
    site.Written may limit (Code.jump (.label label)) :=
  List.forall_mem_cons.2 ⟨h, single (.pop (.inl rfl))⟩

/-- A conditional jump inside the function. -/
theorem branch (h : site.Own label) : site.Written may limit (Code.jumpIfZero label) :=
  List.forall_mem_cons.2 ⟨.own h, List.forall_mem_cons.2 ⟨.pop (.inr (.inr (.inl rfl))), single .jumpIf⟩⟩

/-- A call between the variables that are saved and the label to come back to. -/
theorem call {offset : Int} (own : site.Own label) (entry : site.Entry may label') (low : 0 ≤ offset)
    (high : offset < limit) (values : site.Written may limit block) : site.Written may limit
      ([.constant (.label label), .imm .push Register.base] ++ (block ++ Code.enter offset label')) := by
  have base : site.Names Register.base := .inl rfl
  have saved : site.Written may limit [.constant (.label label), .imm .push Register.base] :=
    (single (.own own)).append (single (.push base))
  have moved : site.Written may limit [.imm .push Register.base, .imm .const (Int32.ofInt offset),
      .plain .add, .imm .pop Register.base] :=
    (single (.push base)).append ((single (.offset low high)).append
      ((single (.plain rfl (by decide))).append (single (.pop (.inr base)))))
  exact saved.append (values.append (moved.append (jump (.entry entry))))

/-- What is assembled from pieces of a function contains instructions of it only. -/
theorem of_assembled (h : site.Assembled may limit block) : site.Written may limit block := by
  -- The registers that hold values are among those that are named.
  induction h with
  | nil => exact nil
  | append _ _ ih ih' => exact ih.append ih'
  | marker label => exact single (.marker label)
  | number low high => exact single (.number low high)
  | push source => exact single (.push (.inr source))
  | pop dest => exact single (.pop (.inr (.inr dest)))
  | copy dest source => exact single (.copy (.inr dest) (.inr source))
  | plain bare effect => exact single (.plain bare effect)
  | jump own => exact jump (.own own)
  | branch own => exact branch own
  | call own entry low high values ih => exact call own entry low high ih

end Written

end Site

/-- The code of a function contains instructions of it only. The frames of its calls begin below as many
words as its code has instructions. -/
theorem FunctionCode.written {site : Site} {next : Nat} {entry : Label} {block : List Instr}
    (params_le : site.function.params ≤ site.function.vars.length) (first : site.exit.id ≤ next)
    (h : FunctionCode site next entry block) :
    site.Written (fun name => ∃ excess, (name, excess) ∈ Stmt.calleesOfAll site.function.body) (room block)
      block := by
  obtain ⟨inner, split, assembled⟩ := h.assembled params_le first
  have left : site.Written (fun name =>
      ∃ excess, (name, excess) ∈ Stmt.calleesOfAll site.function.body) (room block) (Code.leave site) := by
    unfold Code.leave
    split
    · next main => exact (Site.Written.single (.halt main)).append (.single (.pop (.inl rfl)))
    · exact (Site.Written.single (.pop (.inr (.inl rfl)))).append (.single (.pop (.inl rfl)))
  have ending := (Site.Written.single (.marker site.exit)).append left
  have whole := (Site.Written.single (.marker entry)).append ((Site.Written.of_assembled assembled).append ending)
  rwa [← split] at whole

end GridStack
