import EvmToolchain.Proofs.Compiler.HandBack
import EvmToolchain.Proofs.Compiler.LabelScope

/-!
# EvmToolchain.Proofs.Compiler.Statement

The code of a statement has its effect.

Between statements the stack of the machine is empty, and the machine is at the
offset of the statement that is next (`Compilation.config`). From there the code
of the statement leads to where the statement gets to
(`Compilation.leads_execute`), be it the next statement, a label, or the end of
the run.
-/

namespace EvmToolchain

open Instruction Assembly Machine Emitter

/-! ### The code of each statement -/

/-- The code of each of some terms, which are lowered one after the other. -/
def statementCodes (options : CompilerOptions) (labels : Labels) :
    List Term → List (List Instruction)
  | [] => []
  | t :: rest =>
    let emission := (t.lower options).value labels
    emission.code :: statementCodes options emission.labels rest

theorem length_statementCodes (options : CompilerOptions) (labels : Labels) (terms : List Term) :
    (statementCodes options labels terms).length = terms.length := by
  induction terms generalizing labels with
  | nil => rfl
  | cons t rest ih => exact congrArg (· + 1) (ih _)

/-- Each of some codes stands at the total length of those before it. -/
theorem placedAt_flatten {codes : List (List Instruction)} {i : Nat} {code : List Instruction}
    (h : codes[i]? = some code) :
    PlacedAt codes.flatten (codeSize (codes.take i).flatten) code ∧
      codeSize (codes.take (i + 1)).flatten
        = codeSize (codes.take i).flatten + codeSize code := by
  have hnext : codes.take (i + 1) = codes.take i ++ [code] := by
    rw [List.take_add_one, h]
    rfl
  refine ⟨⟨_, (codes.drop (i + 1)).flatten, ?_, rfl⟩, ?_⟩
  · calc codes.flatten = (codes.take (i + 1) ++ codes.drop (i + 1)).flatten := by
          rw [List.take_append_drop]
      _ = (codes.take i).flatten ++ code ++ (codes.drop (i + 1)).flatten := by
          rw [hnext, List.flatten_append, List.flatten_append, List.flatten_singleton]
  · rw [hnext, List.flatten_append, codeSize_append, List.flatten_singleton]

/-- The program of some statements, with the slots that they are compiled for. -/
def CompilerOptions.program (options : CompilerOptions) (statements : List Term)
    (calldata : Bytes) : Semantics.Program where
  statements
  slotSize := options.slotSize.getD 0
  calldata

/-- A program that has been compiled and assembled. -/
structure Compilation where
  options : CompilerOptions
  statements : List Term
  stream : List Instruction
  labels : Labels
  code : Bytes
  calldata : Bytes
  isStatement : ∀ t ∈ statements, t.IsStatement
  yields : (lowerAll options statements).Yields {} stream labels
  assembled : Assembled stream code
  /-- The code of no statement needs more than the stack can hold. -/
  fits : ∀ code ∈ statementCodes options {} statements, peak 0 code ≤ maxStack

namespace Compilation

variable (x : Compilation)

/-- The program in the language. -/
def program : Semantics.Program := x.options.program x.statements x.calldata

/-- The program of the machine. -/
def machine : Machine.Program := .load x.code x.calldata

/-- The offset of a statement in the code. -/
def offset (index : Nat) : Nat :=
  codeSize ((statementCodes x.options {} x.statements).take index).flatten

/-- The configuration of the machine before a statement. -/
def config (s : Semantics.State) : Config := ⟨x.offset s.index, [], s.memory, s.storage⟩

/-- Where a step of the program should lead the machine. -/
def target : Semantics.Step → Target
  | .next s => .config (x.config s)
  | .halt o => .ended o

/-- Where the expressions of a statement are evaluated. -/
def site (s : Semantics.State) : Site where
  stream := x.stream
  code := x.code
  assembled := x.assembled
  calldata := x.calldata
  memory := s.memory
  storage := s.storage

/-- A statement stands at an index, and its code at the offset. -/
structure Stands (index : Nat) (t : Term) (before : Labels) (code : List Instruction)
    (after : Labels) : Prop where
  yields : (t.lower x.options).value.Yields before code after
  placed : PlacedAt x.stream (x.offset index) code
  next : x.offset (index + 1) = x.offset index + codeSize code
  fits : peak 0 code ≤ maxStack
  wellFormed : before.WellFormed
  grows : after.Grows x.labels

end Compilation

/-- The code of some terms is the code of each of them, in order. -/
theorem lowerAll_split {options : CompilerOptions} {terms : List Term}
    (h : ∀ t ∈ terms, t.IsStatement) {before after : Labels} {code : List Instruction}
    (hyields : (lowerAll options terms).Yields before code after) (hbefore : before.WellFormed) :
    code = (statementCodes options before terms).flatten ∧
      ∀ (i : Nat) (t : Term), terms[i]? = some t → ∃ b c a,
        (t.lower options).value.Yields b c a ∧ (statementCodes options before terms)[i]? = some c ∧
        b.WellFormed ∧ a.Grows after := by
  induction terms generalizing before code with
  | nil =>
      obtain ⟨rfl, -⟩ := yields_emit.mp hyields
      exact ⟨rfl, fun i t hi => by simp at hi⟩
  | cons t rest ih =>
      obtain ⟨first, middle, second, hfirst, hsecond, rfl⟩ := yields_append.mp hyields
      have hrest : ∀ u ∈ rest, u.IsStatement := fun u hu => h u (List.mem_cons_of_mem _ hu)
      -- labels only grow, so those of the first statement are still there at the end
      have hscope := (h t List.mem_cons_self).keepsScope hfirst hbefore
      obtain ⟨hcode, hsplit⟩ := ih hrest hsecond hscope.wellFormed
      have hcodes : statementCodes options before (t :: rest)
          = first :: statementCodes options middle rest := by
        rw [statementCodes, hfirst]
      rw [hcodes]
      refine ⟨by rw [hcode, List.flatten_cons], fun i u hi => ?_⟩
      cases i with
      | zero =>
          obtain rfl := Option.some.inj hi
          obtain ⟨-, hgrows, -⟩ := lowerAll_places hrest hsecond hscope.wellFormed
          exact ⟨before, first, middle, hfirst, rfl, hbefore, hgrows⟩
      | succ i => exact hsplit i u hi

namespace Compilation

variable {x : Compilation} {index : Nat} {t : Term}

theorem stream_eq : x.stream = (statementCodes x.options {} x.statements).flatten :=
  (lowerAll_split x.isStatement x.yields Labels.wellFormed_initial).1

/-- The code at an index is that of the statement there. -/
theorem exists_stands_of_code {code : List Instruction}
    (h : (statementCodes x.options {} x.statements)[index]? = some code) :
    ∃ t before after, x.statements[index]? = some t ∧ x.Stands index t before code after := by
  obtain ⟨hlt, -⟩ := List.getElem?_eq_some_iff.mp h
  rw [length_statementCodes] at hlt
  have ht := List.getElem?_eq_getElem hlt
  obtain ⟨hstream, hsplit⟩ := lowerAll_split x.isStatement x.yields Labels.wellFormed_initial
  obtain ⟨before, code', after, hyields, hcode, hwf, hgrows⟩ := hsplit index _ ht
  obtain rfl := Option.some.inj (hcode.symm.trans h)
  obtain ⟨hplaced, hnext⟩ := placedAt_flatten hcode
  rw [← hstream] at hplaced
  exact ⟨_, before, after, ht, hyields, hplaced, hnext, x.fits code' (List.mem_of_getElem? hcode),
    hwf, hgrows⟩

theorem exists_stands (h : x.statements[index]? = some t) :
    ∃ before code after, x.Stands index t before code after := by
  obtain ⟨hlt, -⟩ := List.getElem?_eq_some_iff.mp h
  rw [← length_statementCodes x.options {} x.statements] at hlt
  obtain ⟨t', before, after, ht, hstands⟩ :=
    exists_stands_of_code (List.getElem?_eq_getElem hlt)
  obtain rfl := Option.some.inj (ht.symm.trans h)
  exact ⟨before, _, after, hstands⟩

/-- Past the last statement is past the end of the code. -/
theorem offset_of_le (h : x.statements.length ≤ index) : x.offset index = codeSize x.stream := by
  rw [offset, List.take_of_length_le (by rw [length_statementCodes]; exact h), ← stream_eq]

end Compilation

/-! ### Labels and statements -/

/-- The code of a condition pushes the label that it jumps to. -/
def Lowering.PushesTarget (l : Lowering) : Prop :=
  ∀ (target : BranchTarget) ⦃before code after⦄, (l.branch target).Yields before code after →
    .pushLabel target.label ∈ code

theorem Lowering.PushesTarget.ofValue (value : Emitter) :
    (Lowering.ofValue value).PushesTarget := by
  intro target before code after hyields
  cases target with
  | whenTrue label =>
      obtain ⟨front, middle, back, -, hback, rfl⟩ := yields_append.mp hyields
      obtain ⟨rfl, -⟩ := yields_emit.mp hback
      exact List.mem_append_right _ List.mem_cons_self
  | whenFalse label =>
      obtain ⟨front, middle, back, -, hback, rfl⟩ := yields_append.mp hyields
      obtain ⟨rfl, -⟩ := yields_emit.mp hback
      exact List.mem_append_right _ (List.mem_cons_of_mem _ List.mem_cons_self)

/-- The right operand of a connective always jumps to the label itself. -/
theorem Lowering.PushesTarget.connect {lhs rhs : Lowering} (op : Connective)
    (hr : rhs.PushesTarget) : (Lowering.connect op lhs rhs).PushesTarget := by
  have hboth : ∀ (first : Emitter) (target : BranchTarget) {before code after},
      (first ++ rhs.branch target).Yields before code after → .pushLabel target.label ∈ code := by
    intro first target before code after hyields
    obtain ⟨_, _, _, -, hright, rfl⟩ := yields_append.mp hyields
    exact List.mem_append_right _ (hr target hright)
  have hskip : ∀ (first last : Emitter) (target : BranchTarget) {before code after},
      (first ++ rhs.branch target ++ last).Yields before code after →
        .pushLabel target.label ∈ code := by
    intro first last target before code after hyields
    obtain ⟨_, _, _, hfirst, -, rfl⟩ := yields_append.mp hyields
    exact List.mem_append_left _ (hboth first target hfirst)
  intro target before code after hyields
  cases op <;> cases target
  case and.whenTrue label =>
    exact hskip (lhs.branch (.whenFalse before.next)) (emit [.jumpdest before.next]) _ hyields
  case or.whenFalse label =>
    exact hskip (lhs.branch (.whenTrue before.next)) (emit [.jumpdest before.next]) _ hyields
  all_goals exact hboth (lhs.branch _) _ hyields

theorem Term.IsExpression.pushesTarget (options : CompilerOptions) {t : Term}
    (h : t.IsExpression) : (t.lower options).PushesTarget := by
  induction h with
  | connective op _ _ _ ihr =>
      rw [Term.lower]
      exact .connect op ihr
  | literal l =>
      rw [Term.lower]
      exact .ofValue _
  | arithmetic op _ _ _ _ =>
      rw [Term.lower]
      exact .ofValue _
  | access r _ _ =>
      rw [Term.lower]
      exact .ofValue _

namespace Compilation

variable {x : Compilation} {index : Nat} {t : Term} {name : String} {k : Nat}
  {before after : Labels} {code : List Instruction}

/-- A label that is pushed for a name is placed by the statement that carries the
name. -/
theorem exists_label (h : x.Stands index t before code after)
    (hfind : after.find? name = some k) (hpush : .pushLabel (k : Int) ∈ code) :
    ∃ i, x.program.labelIndex? name = some i ∧ LabelAt x.stream (some (k : Int)) (x.offset i) := by
  have hfind := h.grows.find? hfind
  -- assembly has found a place for the label
  obtain ⟨pc, hplaced⟩ := h.placed.exists_of_mem hpush
  obtain ⟨address, hlabel, -⟩ := x.assembled.decodeAt_pushLabel hplaced
  obtain ⟨i, hjump, hi, hplace⟩ := hlabel
  have hmem := label_mem_of_places x.isStatement x.yields hfind ⟨i, hplace.mem, hjump, hi⟩
  obtain ⟨j, hj, hstatement⟩ := Semantics.Program.exists_labelIndex? (p := x.program) hmem
  refine ⟨j, hj, ?_⟩
  -- the statement there places the label of the name, which is the one that was pushed
  obtain ⟨before', code', after', hstands⟩ := exists_stands hstatement
  obtain ⟨-, hgrows, hfind'⟩ := hstands.wellFormed.named name
  have hyields := hstands.yields
  rw [Term.lower, Lowering.value_ofValue, yields_withNamed] at hyields
  obtain ⟨rfl, rfl⟩ := yields_emit.mp hyields
  have hk := hstands.grows.find? hfind'
  rw [hfind] at hk
  obtain rfl := Option.some.inj hk
  exact ⟨_, rfl, rfl, hstands.placed⟩

/-! ### Statements -/

variable {s : Semantics.State} {condition value : Term}

theorem target_orTrap {α : Type} (result : Option α) (f : α → Semantics.Step) :
    x.target (s.orTrap result f) = .orTrap (.trapped s.storage) result fun v => x.target (f v) := by
  cases result <;> rfl

theorem config_advance (h : x.Stands s.index t before code after) :
    x.target s.advance
      = .config ⟨x.offset s.index + codeSize code, [], s.memory, s.storage⟩ := by
  rw [← h.next]
  rfl

/-- Where a run goes on for a name is where its label is placed. -/
theorem target_goto (h : x.Stands s.index t before code after)
    (hfind : after.find? name = some k) (hpush : .pushLabel (k : Int) ∈ code) :
    ∃ dest, LabelAt x.stream (some (k : Int)) dest ∧
      x.target (x.program.goto s name) = .config ⟨dest, [], s.memory, s.storage⟩ := by
  obtain ⟨i, hi, hlabel⟩ := exists_label h hfind hpush
  refine ⟨x.offset i, hlabel, ?_⟩
  rw [Semantics.Program.goto, hi]
  rfl

theorem leads_assert (hcondition : condition.IsExpression)
    (h : x.Stands s.index (.assert condition) before code after) :
    Leads x.machine (x.config s) (x.target (x.program.execute s (.assert condition))) := by
  have hcorrect := hcondition.correct (x.site s) x.options
  have hyields := h.yields
  rw [Term.lower, Lowering.value_ofValue, yields_withFresh] at hyields
  obtain ⟨front, middle, last, hfront, hlast, hcode⟩ := yields_append.mp hyields
  obtain ⟨rfl, -⟩ := yields_emit.mp hlast
  subst hcode
  -- the label of the success is placed behind the failure
  have hjumpdest := h.placed.right.tail
  rw [Semantics.Program.execute, target_orTrap]
  refine (hcorrect.branch _).andThen (hcorrect.balanced.branch _) .trapped hfront h.placed
    h.fits ⟨_, rfl, rfl, hjumpdest⟩ fun v _ hplaced _ => ?_
  rw [BranchTarget.ite_whenTrue]
  by_cases hv : v = 0
  · rw [if_pos hv, if_pos hv]
    exact x.assembled.leads_invalid hplaced.head
  · rw [if_neg hv, if_neg hv, config_advance h, codeSize_append]
    exact x.assembled.leads_jumpdest hjumpdest

/-- An assignment computes the value and the index, and then stores. -/
theorem leads_assign {r : Region} {store : Opcode} {i : Term}
    {effect : Semantics.Word → Semantics.Word → Semantics.Step} (hr : r.store? = some (.op store))
    (hindex : i.IsExpression) (hvalue : value.IsExpression)
    (h : x.Stands s.index (.assign (.access (.region r) i) value) before code after)
    (hstore : ∀ pc v w, PlacedAt x.stream pc [.op store] → x.offset (s.index + 1) = pc + 1 →
      Leads x.machine ⟨pc, [w.toNat, v.toNat], s.memory, s.storage⟩ (x.target (effect v w))) :
    Leads x.machine (x.config s)
      (x.target (s.orTrap (Semantics.eval (x.program.env s) value) fun v =>
        s.orTrap (Semantics.eval (x.program.env s) i) fun w => effect v w)) := by
  have hcorrect := hvalue.correct (x.site s) x.options
  have hcorrect' := hindex.correct (x.site s) x.options
  have hnext := h.next
  have hyields := h.yields
  rw [Term.lower, Lowering.value_ofValue] at hyields
  simp only [hr] at hyields
  obtain ⟨front, _, _, hfront, hrest, hcode⟩ := yields_append.mp hyields
  obtain ⟨back, _, last, hback, hlast, rfl⟩ := yields_append.mp hrest
  obtain ⟨rfl, -⟩ := yields_emit.mp hlast
  subst hcode
  rw [codeSize_append, codeSize_append, ← Nat.add_assoc, ← Nat.add_assoc] at hnext
  rw [target_orTrap]
  refine hcorrect.value.andThen hcorrect.balanced.value .trapped hfront h.placed h.fits
    fun v _ hplaced hpeak => ?_
  rw [target_orTrap]
  refine hcorrect'.value.andThen hcorrect'.balanced.value .trapped hback hplaced hpeak
    fun w _ hplaced _ => ?_
  exact hstore _ v w hplaced hnext

theorem leads_assignMemory {i : Term} (hindex : i.IsExpression) (hvalue : value.IsExpression)
    (h : x.Stands s.index (.assign (.access (.region .memory) i) value) before code after) :
    Leads x.machine (x.config s)
      (x.target (x.program.execute s (.assign (.access (.region .memory) i) value))) := by
  rw [Semantics.Program.execute]
  refine leads_assign rfl hindex hvalue h fun pc v w hplaced hnext => ?_
  rw [apply_ite x.target]
  show Leads _ _ (if _ then .config ⟨x.offset (s.index + 1), _, _, _⟩ else _)
  rw [hnext]
  exact x.assembled.leads_mstore hplaced w.toNat v

theorem leads_assignStorage {i : Term} (hindex : i.IsExpression) (hvalue : value.IsExpression)
    (h : x.Stands s.index (.assign (.access (.region .storage) i) value) before code after) :
    Leads x.machine (x.config s)
      (x.target (x.program.execute s (.assign (.access (.region .storage) i) value))) := by
  rw [Semantics.Program.execute]
  refine leads_assign rfl hindex hvalue h fun pc v w hplaced hnext => ?_
  show Leads _ _ (.config ⟨x.offset (s.index + 1), _, _, _⟩)
  rw [hnext]
  exact x.assembled.leads_sstore hplaced w.toNat v.toNat

theorem leads_goto (h : x.Stands s.index (.goto name) before code after) :
    Leads x.machine (x.config s) (x.target (x.program.execute s (.goto name))) := by
  obtain ⟨-, -, hfind⟩ := h.wellFormed.named name
  have hyields := h.yields
  rw [Term.lower, Lowering.value_ofValue, yields_withNamed] at hyields
  obtain ⟨rfl, rfl⟩ := yields_emit.mp hyields
  obtain ⟨dest, hlabel, htarget⟩ := target_goto h hfind List.mem_cons_self
  rw [Semantics.Program.execute, htarget]
  refine Leads.trans
    (x.assembled.leads_pushLabel h.placed.head hlabel (room_of_peak h.fits)) ?_
  exact x.assembled.leads_jump h.placed.tail hlabel

theorem leads_ifGoto (hcondition : condition.IsExpression)
    (h : x.Stands s.index (.ifGoto condition name) before code after) :
    Leads x.machine (x.config s) (x.target (x.program.execute s (.ifGoto condition name))) := by
  have hcorrect := hcondition.correct (x.site s) x.options
  obtain ⟨-, -, hfind⟩ := h.wellFormed.named name
  have hyields := h.yields
  rw [Term.lower, Lowering.value_ofValue, yields_withNamed] at hyields
  -- the code of the condition names no more labels
  obtain ⟨hnames, -⟩ := hcondition.placesOwn.branch _ hyields
  have hfind : after.find? name = some (before.named name).1 := by
    rw [← hfind, Labels.find?, Labels.find?, hnames]
  obtain ⟨dest, hlabel, htarget⟩ :=
    target_goto h hfind (hcondition.pushesTarget x.options (.whenTrue _) hyields)
  have hbranch := hcorrect.branch _ hyields (x.offset s.index) [] dest h.placed h.fits hlabel
  simp only [BranchTarget.ite_whenTrue] at hbranch
  rw [Semantics.Program.execute, target_orTrap]
  have hsame : ∀ v : Semantics.Word,
      x.target (if v = 0 then s.advance else x.program.goto s name)
        = (x.site s).reached (if v = 0 then x.offset s.index + codeSize code else dest) [] := by
    intro v
    rw [apply_ite x.target, config_advance h, htarget]
    split <;> rfl
  simp only [hsame]
  exact Target.Implies.trapped.orTrap _ _ hbranch

theorem leads_label (h : x.Stands s.index (.label name) before code after) :
    Leads x.machine (x.config s) (x.target (x.program.execute s (.label name))) := by
  have hyields := h.yields
  rw [Term.lower, Lowering.value_ofValue, yields_withNamed] at hyields
  obtain ⟨rfl, rfl⟩ := yields_emit.mp hyields
  rw [Semantics.Program.execute, config_advance h]
  exact x.assembled.leads_jumpdest h.placed

theorem leads_fail (h : x.Stands s.index .fail before code after) :
    Leads x.machine (x.config s) (x.target (x.program.execute s .fail)) := by
  have hyields := h.yields
  rw [Term.lower, Lowering.value_ofValue] at hyields
  obtain ⟨rfl, rfl⟩ := yields_emit.mp hyields
  exact x.assembled.leads_invalid h.placed

theorem leads_stop (h : PlacedAt x.stream (x.offset s.index) [.op .stop]) :
    Leads x.machine (x.config s) (x.target (s.halt .stopped)) :=
  x.assembled.leads_stop h

theorem leads_handBack {values : List Term} (hvalues : ∀ t ∈ values, t.IsExpression) {o : Opcode}
    {ending : Bytes → Machine.Ending} {ending' : List UInt8 → Semantics.Ending}
    (ho : ∀ p next s, executeOp p o next s
      = s.withTwo fun offset size s => s.finish offset size ending)
    (hseen : ∀ b, (ending b).seen = ending' b.contents)
    (hyields : (lowerResult x.options (.op o) values).Yields before code after)
    (hplaced : PlacedAt x.stream (x.offset s.index) code) (hpeak : peak 0 code ≤ maxStack) :
    Leads x.machine (x.config s) (x.target (x.program.handBack s values ending')) := by
  rw [Semantics.Program.handBack, target_orTrap]
  simp only [apply_ite x.target]
  exact x.assembled.leads_handBack (p := x.program) rfl hvalues ho hseen hyields hplaced hpeak

/-- From where a statement stands its code leads to where the statement gets to. -/
theorem leads_execute (ht : x.program.statements[s.index]? = some t) :
    Leads x.machine (x.config s) (x.target (x.program.execute s t)) := by
  obtain ⟨before, code, after, h⟩ := exists_stands ht
  have hyields := h.yields
  cases x.isStatement t (List.mem_of_getElem? ht) with
  | assert hcondition => exact leads_assert hcondition h
  | assignMemory hindex hvalue => exact leads_assignMemory hindex hvalue h
  | assignStorage hindex hvalue => exact leads_assignStorage hindex hvalue h
  | fail => exact leads_fail h
  | goto name => exact leads_goto h
  | ifGoto name hcondition => exact leads_ifGoto hcondition h
  | label name => exact leads_label h
  | revert hvalues =>
      rw [Term.lower, Lowering.value_ofValue] at hyields
      rw [Semantics.Program.execute]
      exact leads_handBack hvalues (fun _ _ _ => rfl) (fun _ => rfl) hyields h.placed h.fits
  | @succeed values hvalues =>
      cases values with
      | nil =>
          rw [Term.lower, Lowering.value_ofValue] at hyields
          obtain ⟨rfl, -⟩ := yields_emit.mp hyields
          exact leads_stop h.placed
      | cons t rest =>
          simp only [Term.lower, Lowering.value_ofValue] at hyields
          exact leads_handBack hvalues (fun _ _ _ => rfl) (fun _ => rfl) hyields h.placed h.fits
  | stop =>
      rw [Term.lower, Lowering.value_ofValue] at hyields
      obtain ⟨rfl, -⟩ := yields_emit.mp hyields
      exact leads_stop h.placed

end Compilation

end EvmToolchain
