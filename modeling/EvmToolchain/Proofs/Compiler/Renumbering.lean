import EvmToolchain.Proofs.Code.Renaming
import EvmToolchain.Proofs.Compiler.Hygiene

/-!
# EvmToolchain.Proofs.Compiler.Renumbering

Compiling with labels that are numbered differently.

Labels are numbered in the order of their allocation, so a session that is asked for
more labels than another one numbers those of its terms differently. The labels of
the second session that stand for those of the first one are kept in a list
(`Labels.Renumbers`), which grows as both allocate labels for the same term. Every
term is lowered to emitters that follow each other from one allocator to the other
(`Term.uniform_lower`): they fail alike, and emit code that differs in the numbers of
labels only. So what extra labels change in a session is the numbering, and neither
the outcomes nor the assembled bytes (`Session.compile_despite_labels`).
-/

namespace EvmToolchain

open Emitter

/-! ### Allocators -/

namespace Labels

/-- The second allocator has been asked for all that the first one has been asked for,
and maybe for more. The images are the labels of the second one that stand for those
of the first one, in order. -/
structure Renumbers (images : List Nat) (ls rs : Labels) : Prop where
  left : ls.WellFormed
  right : rs.WellFormed
  length_eq : images.length = ls.next
  nodup : images.Nodup
  lt_next : ∀ m ∈ images, m < rs.next
  /-- Names are renumbered along with their labels. -/
  find?_eq : ∀ {name k}, ls.find? name = some k → rs.find? name = images[k]?
  /-- The label of any other name stands for none. -/
  not_mem : ∀ {name m}, ls.find? name = none → rs.find? name = some m → m ∉ images

theorem find?_named_of_ne {name name' : String} (h : name' ≠ name) (ls : Labels) :
    (ls.named name).2.find? name' = ls.find? name' := by
  rw [named]
  cases ls.find? name with
  | some label => rfl
  | none =>
      have hne : (name == name') = false := beq_eq_false_iff_ne.mpr (Ne.symm h)
      simp [find?, List.find?_append, hne]

theorem named_of_none {ls : Labels} {name : String} (h : ls.find? name = none) :
    ls.named name
      = (ls.next, { next := ls.next + 1, names := ls.names ++ [(name, ls.next)] }) := by
  rw [named, h]

theorem named_of_some {ls : Labels} {name : String} {label : Nat}
    (h : ls.find? name = some label) : ls.named name = (label, ls) := by
  rw [named, h]

namespace Renumbers

variable {images : List Nat} {ls rs ls' rs' : Labels} {name : String}

theorem initial : Renumbers [] {} {} where
  left := wellFormed_initial
  right := wellFormed_initial
  length_eq := rfl
  nodup := .nil
  lt_next := List.forall_mem_nil _
  find?_eq := nofun
  not_mem := nofun

theorem lt_length (h : Renumbers images ls rs) {k : Nat} (hfind : ls.find? name = some k) :
    k < images.length := by
  rw [h.length_eq]
  exact h.left.lt_next _ (mem_of_find? hfind)

/-- A label that is allocated for both sides stands for the one that is allocated on
the left. -/
theorem snoc (h : Renumbers images ls rs) (hl : ls'.WellFormed) (hr : rs'.WellFormed)
    (hnext : ls'.next = ls.next + 1) (hle : rs.next ≤ rs'.next) {m : Nat} (hm : m < rs'.next)
    (hnew : m ∉ images)
    (hfind : ∀ {name k}, ls'.find? name = some k → rs'.find? name = (images ++ [m])[k]?)
    (hnot : ∀ {name j}, ls'.find? name = none → rs'.find? name = some j → j ∉ images ++ [m]) :
    Renumbers (images ++ [m]) ls' rs' where
  left := hl
  right := hr
  length_eq := by rw [List.length_append, h.length_eq, hnext]; rfl
  nodup := List.nodup_append.mpr ⟨h.nodup, List.nodup_singleton m, fun j hj k hk heq =>
    hnew (List.mem_singleton.mp hk ▸ heq ▸ hj)⟩
  lt_next := List.forall_mem_append.mpr
    ⟨fun j hj => Nat.lt_of_lt_of_le (h.lt_next j hj) hle, List.forall_mem_singleton.mpr hm⟩
  find?_eq := hfind
  not_mem := hnot

theorem next_not_mem (h : Renumbers images ls rs) : rs.next ∉ images :=
  fun hmem => Nat.lt_irrefl _ (h.lt_next _ hmem)

theorem fresh (h : Renumbers images ls rs) :
    Renumbers (images ++ [rs.next]) ls.fresh.2 rs.fresh.2 := by
  refine h.snoc (Reserved.fresh h.left).wellFormed (Reserved.fresh h.right).wellFormed rfl
    (Nat.le_succ _) (Nat.lt_succ_self _) h.next_not_mem (fun {name k} hk => ?_)
    fun {name j} hnone hj hmem => ?_
  · rw [List.getElem?_append_left (h.lt_length hk)]
    exact h.find?_eq hk
  · have hlt : j < rs.next := h.right.lt_next _ (mem_of_find? hj)
    rcases List.mem_append.mp hmem with hmem | hmem
    · exact h.not_mem hnone hj hmem
    · exact Nat.ne_of_lt hlt (List.mem_singleton.mp hmem)

/-- The label of a name that is new on the left stands for none yet. -/
theorem named_not_mem (h : Renumbers images ls rs) (hnone : ls.find? name = none) :
    (rs.named name).1 ∉ images := by
  cases hfind : rs.find? name with
  | some m =>
      rw [named_of_some hfind]
      exact h.not_mem hnone hfind
  | none =>
      rw [named_of_none hfind]
      exact h.next_not_mem

/-- A name that is looked up on both sides, and may have been asked for before on the
right side only. -/
theorem named (h : Renumbers images ls rs) (name : String) :
    ∃ after, images <+: after ∧ Renumbers after (ls.named name).2 (rs.named name).2 ∧
      after[(ls.named name).1]? = some (rs.named name).1 := by
  cases hfind : ls.find? name with
  | some k =>
      have hlt := h.lt_length hfind
      have hright : rs.find? name = some images[k] :=
        (h.find?_eq hfind).trans (List.getElem?_eq_getElem hlt)
      rw [named_of_some hfind, named_of_some hright]
      exact ⟨images, List.prefix_rfl, h, List.getElem?_eq_getElem hlt⟩
  | none =>
      obtain ⟨hl, -, hkey⟩ := h.left.named name
      obtain ⟨hr, hgrows, hname⟩ := h.right.named name
      have hlast : (images ++ [(rs.named name).1])[(ls.named name).1]?
          = some (rs.named name).1 := by
        rw [named_of_none hfind, ← h.length_eq]
        exact List.getElem?_concat_length
      refine ⟨images ++ [(rs.named name).1], List.prefix_append _ _, ?_, hlast⟩
      refine h.snoc hl hr (congrArg (·.2.next) (named_of_none hfind)) hgrows.next_le
        (hr.lt_next _ (mem_of_find? hname)) (h.named_not_mem hfind) (fun {name' k} hk => ?_)
        fun {name' j} hnone hj hmem => ?_
      · by_cases heq : name' = name
        · subst heq
          obtain rfl := Option.some.inj (hkey.symm.trans hk)
          rw [hname, hlast]
        · rw [find?_named_of_ne heq] at hk ⊢
          rw [List.getElem?_append_left (h.lt_length hk)]
          exact h.find?_eq hk
      · by_cases heq : name' = name
        · subst heq
          rw [hkey] at hnone
          cases hnone
        · rcases List.mem_append.mp hmem with hmem | hmem
          · rw [find?_named_of_ne heq] at hnone hj
            exact h.not_mem hnone hj hmem
          · obtain rfl := List.mem_singleton.mp hmem
            exact heq (hr.eq_of_find? hj hname)

/-- An extra label on the right side. -/
theorem fresh_right (h : Renumbers images ls rs) : Renumbers images ls rs.fresh.2 where
  left := h.left
  right := (Reserved.fresh h.right).wellFormed
  length_eq := h.length_eq
  nodup := h.nodup
  lt_next := fun m hm => Nat.lt_succ_of_lt (h.lt_next m hm)
  find?_eq := h.find?_eq
  not_mem := h.not_mem

/-- An extra name on the right side, which may have a label already. -/
theorem named_right (h : Renumbers images ls rs) (name : String) :
    Renumbers images ls (rs.named name).2 := by
  obtain ⟨hr, hgrows, hname⟩ := h.right.named name
  constructor
  case left => exact h.left
  case right => exact hr
  case length_eq => exact h.length_eq
  case nodup => exact h.nodup
  case lt_next => exact fun m hm => Nat.lt_of_lt_of_le (h.lt_next m hm) hgrows.next_le
  case find?_eq =>
    intro name' k hk
    have hsome := (h.find?_eq hk).trans (List.getElem?_eq_getElem (h.lt_length hk))
    rw [hgrows.find? hsome, List.getElem?_eq_getElem (h.lt_length hk)]
  case not_mem =>
    intro name' m hnone hm
    by_cases heq : name' = name
    · subst heq
      obtain rfl := Option.some.inj (hname.symm.trans hm)
      exact h.named_not_mem hnone
    · rw [find?_named_of_ne heq] at hm
      exact h.not_mem hnone hm

end Renumbers

end Labels

/-! ### Emissions -/

/-- The instructions are the same up to the number of the label. -/
inductive Instruction.Renumbered (images : List Nat) : Instruction → Instruction → Prop
  | unlabelled {i : Instruction} : i.label = none → Renumbered images i i
  | labelled {mnemonic : Mnemonic} {data : List UInt8} {k m : Nat} : images[k]? = some m →
      Renumbered images ⟨mnemonic, data, some k⟩ ⟨mnemonic, data, some m⟩

/-- Where a condition jumps is the same up to the number of the label. -/
inductive BranchTarget.Renumbered (images : List Nat) : BranchTarget → BranchTarget → Prop
  | whenTrue {k m : Nat} : images[k]? = some m → Renumbered images (.whenTrue k) (.whenTrue m)
  | whenFalse {k m : Nat} : images[k]? = some m → Renumbered images (.whenFalse k) (.whenFalse m)

/-- The emissions are the same up to the numbers of labels. -/
structure Emission.Renumbers (images : List Nat) (x y : Emission) : Prop where
  labels : x.labels.Renumbers images y.labels
  failure_eq : y.failure = x.failure
  code : List.Forall₂ (Instruction.Renumbered images) x.code y.code

section

variable {images after : List Nat}

theorem getElem?_extended (h : images <+: after) {k m : Nat} (hk : images[k]? = some m) :
    after[k]? = some m := by
  obtain ⟨more, rfl⟩ := h
  obtain ⟨hlt, -⟩ := List.getElem?_eq_some_iff.mp hk
  rwa [List.getElem?_append_left hlt]

theorem Instruction.Renumbered.mono {i j : Instruction} (h : i.Renumbered images j)
    (hmore : images <+: after) : i.Renumbered after j := by
  cases h with
  | unlabelled hlabel => exact .unlabelled hlabel
  | labelled hk => exact .labelled (getElem?_extended hmore hk)

theorem renumbered_mono {code code' : List Instruction}
    (h : List.Forall₂ (Instruction.Renumbered images) code code') (hmore : images <+: after) :
    List.Forall₂ (Instruction.Renumbered after) code code' :=
  h.imp fun _ _ hi => hi.mono hmore

theorem renumbered_of_unlabelled {code : List Instruction} (h : ∀ i ∈ code, i.label = none) :
    List.Forall₂ (Instruction.Renumbered images) code code :=
  List.forall₂_same.mpr fun i hi => .unlabelled (h i hi)

end

/-! ### Emitters -/

namespace Emitter

/-- Wherever at least these labels are renumbered, the second emitter does what the
first one does, up to the numbers of labels. -/
def Follows (images : List Nat) (a b : Emitter) : Prop :=
  ∀ (now : List Nat) (ls rs : Labels), images <+: now → ls.Renumbers now rs →
    ∃ after, now <+: after ∧ (a ls).Renumbers after (b rs)

variable {images : List Nat} {a b a' b' : Emitter}

theorem Follows.mono {after : List Nat} (h : Follows images a b) (hmore : images <+: after) :
    Follows after a b := fun now ls rs hnow => h now ls rs (hmore.trans hnow)

theorem follows_emit {code code' : List Instruction}
    (h : List.Forall₂ (Instruction.Renumbered images) code code') :
    Follows images (emit code) (emit code') :=
  fun now _ _ hnow hlabels => ⟨now, List.prefix_rfl, hlabels, rfl, renumbered_mono h hnow⟩

theorem follows_emit_unlabelled {code : List Instruction} (h : ∀ i ∈ code, i.label = none) :
    Follows images (emit code) (emit code) := follows_emit (renumbered_of_unlabelled h)

theorem follows_op (o : Opcode) : Follows images (emit [.op o]) (emit [.op o]) :=
  follows_emit_unlabelled (List.forall_mem_singleton.mpr rfl)

theorem follows_jumpdest {k m : Nat} (h : images[k]? = some m) :
    Follows images (emit [.jumpdest k]) (emit [.jumpdest m]) :=
  follows_emit (.cons (.labelled h) .nil)

theorem follows_fail (e : CompileError) : Follows images (fail e) (fail e) :=
  fun now _ _ _ hlabels => ⟨now, List.prefix_rfl, hlabels, rfl, .nil⟩

theorem Follows.append (ha : Follows images a b) (ha' : Follows images a' b') :
    Follows images (a ++ a') (b ++ b') := by
  intro now ls rs hnow hlabels
  obtain ⟨middle, hmiddle, hfirst⟩ := ha now ls rs hnow hlabels
  cases hfail : (a ls).failure with
  | some e =>
      have hfail' : (b rs).failure = some e := hfirst.failure_eq.trans hfail
      rw [append_apply_of_failure hfail, append_apply_of_failure hfail']
      exact ⟨middle, hmiddle, hfirst⟩
  | none =>
      have hfail' : (b rs).failure = none := hfirst.failure_eq.trans hfail
      obtain ⟨after, hafter, hsecond⟩ := ha' _ _ _ (hnow.trans hmiddle) hfirst.labels
      rw [append_apply hfail, append_apply hfail']
      exact ⟨after, hmiddle.trans hafter, hsecond.labels, hsecond.failure_eq,
        List.rel_append (renumbered_mono hfirst.code hafter) hsecond.code⟩

theorem follows_withFresh {f g : Nat → Emitter}
    (h : ∀ (now : List Nat) (k m : Nat), images <+: now → now[k]? = some m →
      Follows now (f k) (g m)) :
    Follows images (withFresh f) (withFresh g) := by
  intro now ls rs hnow hlabels
  have hmore := List.prefix_append now [rs.next]
  have hlast : (now ++ [rs.next])[ls.next]? = some rs.next := by
    rw [← hlabels.length_eq]
    exact List.getElem?_concat_length
  obtain ⟨after, hafter, hemission⟩ :=
    h _ _ _ (hnow.trans hmore) hlast _ _ _ List.prefix_rfl hlabels.fresh
  exact ⟨after, hmore.trans hafter, hemission⟩

theorem follows_withNamed {name : String} {f g : Nat → Emitter}
    (h : ∀ (now : List Nat) (k m : Nat), images <+: now → now[k]? = some m →
      Follows now (f k) (g m)) :
    Follows images (withNamed name f) (withNamed name g) := by
  intro now ls rs hnow hlabels
  obtain ⟨middle, hmiddle, hnamed, hlabel⟩ := hlabels.named name
  obtain ⟨after, hafter, hemission⟩ :=
    h _ _ _ (hnow.trans hmiddle) hlabel _ _ _ List.prefix_rfl hnamed
  exact ⟨after, hmiddle.trans hafter, hemission⟩

theorem Follows.jumpOn (h : Follows images a b) {left right : BranchTarget}
    (htarget : left.Renumbered images right) :
    Follows images (a.jumpOn left) (b.jumpOn right) := by
  have hjump : ∀ {k m : Nat}, images[k]? = some m →
      List.Forall₂ (Instruction.Renumbered images) [.pushLabel k, .op .jumpi]
        [.pushLabel m, .op .jumpi] :=
    fun hk => .cons (.labelled hk) (.cons (.unlabelled rfl) .nil)
  cases htarget with
  | whenTrue hk => exact h.append (follows_emit (hjump hk))
  | whenFalse hk =>
      have hnegated := List.Forall₂.cons (.unlabelled (i := .op .isZero) rfl) (hjump hk)
      exact h.append (follows_emit hnegated)

variable (options : CompilerOptions)

theorem follows_push (value : Nat) : Follows images (push options value) (push options value) := by
  unfold push
  split
  · next i hi =>
    obtain ⟨data, rfl, -⟩ := makePush_ok hi
    exact follows_emit_unlabelled (List.forall_mem_singleton.mpr rfl)
  · exact follows_fail _

theorem follows_pushSlot (slot : Nat) :
    Follows images (pushSlot options slot) (pushSlot options slot) := by
  unfold pushSlot
  split
  · exact follows_push options _
  · exact follows_fail _

theorem follows_pushLiteral (l : Literal) :
    Follows images (pushLiteral options l) (pushLiteral options l) := by
  unfold pushLiteral
  split
  · exact follows_fail _
  · exact follows_push options _

end Emitter

/-! ### Terms -/

/-- What the lowering emits depends on the numbers of labels by their numbers only. -/
structure Lowering.Uniform (l : Lowering) : Prop where
  value : Follows [] l.value l.value
  branch : ∀ (images : List Nat) (left right : BranchTarget), left.Renumbered images right →
    Follows images (l.branch left) (l.branch right)

namespace Lowering.Uniform

variable {images : List Nat}

theorem anyValue {l : Lowering} (h : l.Uniform) : Follows images l.value l.value :=
  h.value.mono List.nil_prefix

theorem ofValue {value : Emitter} (h : Follows [] value value) :
    (Lowering.ofValue value).Uniform where
  value := h
  branch _ _ _ htarget := (h.mono List.nil_prefix).jumpOn htarget

theorem connect {lhs rhs : Lowering} (op : Connective) (hl : lhs.Uniform) (hr : rhs.Uniform) :
    (Lowering.connect op lhs rhs).Uniform where
  value := by
    have hrest : ∀ (now : List Nat) (k m : Nat), [] <+: now → now[k]? = some m →
        Follows now
          (emit [.pushLabel k, .op .jumpi, .op .pop] ++ rhs.value ++ emit [.jumpdest k])
          (emit [.pushLabel m, .op .jumpi, .op .pop] ++ rhs.value ++ emit [.jumpdest m]) := by
      intro now k m _ hk
      have hjump : List.Forall₂ (Instruction.Renumbered now)
          [.pushLabel k, .op .jumpi, .op .pop] [.pushLabel m, .op .jumpi, .op .pop] :=
        .cons (.labelled hk) (renumbered_of_unlabelled (by decide))
      exact ((follows_emit hjump).append hr.anyValue).append (follows_jumpdest hk)
    refine (hl.value.append (follows_emit_unlabelled ?_)).append (follows_withFresh hrest)
    cases op <;> decide
  branch images left right htarget := by
    -- the skip point is allocated on both sides, and the given label is still renumbered
    have hskip : ∀ {now : List Nat} {k m : Nat} {l l' r r' : BranchTarget},
        now[k]? = some m → l.Renumbered now l' → r.Renumbered now r' →
        Follows now (lhs.branch l ++ rhs.branch r ++ emit [.jumpdest k])
          (lhs.branch l' ++ rhs.branch r' ++ emit [.jumpdest m]) :=
      fun hk hl' hr' => ((hl.branch _ _ _ hl').append (hr.branch _ _ _ hr')).append
        (follows_jumpdest hk)
    cases op with
    | and =>
        cases htarget with
        | whenTrue h =>
            exact follows_withFresh fun now k m hnow hk =>
              hskip hk (.whenFalse hk) (.whenTrue (getElem?_extended hnow h))
        | whenFalse h =>
            exact (hl.branch _ _ _ (.whenFalse h)).append (hr.branch _ _ _ (.whenFalse h))
    | or =>
        cases htarget with
        | whenTrue h =>
            exact (hl.branch _ _ _ (.whenTrue h)).append (hr.branch _ _ _ (.whenTrue h))
        | whenFalse h =>
            exact follows_withFresh fun now k m hnow hk =>
              hskip hk (.whenTrue hk) (.whenFalse (getElem?_extended hnow h))

end Lowering.Uniform

theorem Arithmetic.label_code (op : Arithmetic) : ∀ i ∈ op.code, i.label = none := by
  cases op <;> decide

theorem Region.label_load (r : Region) : r.load.label = none := by
  cases r <;> rfl

theorem Region.label_store {r : Region} {i : Instruction} (h : r.store? = some i) :
    i.label = none := by
  cases r <;> cases h <;> rfl

mutual

/-- All that is emitted for a term is the same up to the numbers of labels. -/
theorem Term.uniform_lower (options : CompilerOptions) : ∀ t : Term, (t.lower options).Uniform
  | .assert condition => by
      rw [Term.lower]
      refine .ofValue (follows_withFresh fun now k m _ hk => ?_)
      have hplace : List.Forall₂ (Instruction.Renumbered now)
          [.op .invalid, .jumpdest k] [.op .invalid, .jumpdest m] :=
        .cons (.unlabelled rfl) (.cons (.labelled hk) .nil)
      exact ((condition.uniform_lower options).branch _ _ _ (.whenTrue hk)).append
        (follows_emit hplace)
  | .assign target value => by
      have hvalue := (value.uniform_lower options).value
      by_cases h : ∃ r index, target = .access (.region r) index
      · obtain ⟨r, index, rfl⟩ := h
        rw [Term.lower]
        refine .ofValue (hvalue.append ?_)
        cases hstore : r.store? with
        | some store =>
            exact (index.uniform_lower options).value.append (follows_emit_unlabelled
              (List.forall_mem_singleton.mpr (Region.label_store hstore)))
        | none => exact follows_fail _
      · obtain ⟨e, he⟩ := Term.lower_assign_of_ne options value fun r index heq =>
          h ⟨r, index, heq⟩
        rw [he]
        exact .ofValue (hvalue.append (follows_fail e))
  | .fail => by
      rw [Term.lower]
      exact .ofValue (follows_op _)
  | .goto label => by
      rw [Term.lower]
      refine .ofValue (follows_withNamed fun now k m _ hk => follows_emit ?_)
      exact .cons (.labelled hk) (.cons (.unlabelled rfl) .nil)
  | .ifGoto condition label => by
      rw [Term.lower]
      exact .ofValue (follows_withNamed fun now k m _ hk =>
        (condition.uniform_lower options).branch _ _ _ (.whenTrue hk))
  | .label name => by
      rw [Term.lower]
      exact .ofValue (follows_withNamed fun now k m _ hk => follows_jumpdest hk)
  | .revert values => by
      rw [Term.lower]
      exact .ofValue (follows_lowerResult options .revert values)
  | .succeed [] => by
      rw [Term.lower]
      exact .ofValue (follows_op _)
  | .succeed (first :: rest) => by
      rw [Term.lower]
      · exact .ofValue (follows_lowerResult options .ret (first :: rest))
      · nofun
  | .stop => by
      rw [Term.lower]
      exact .ofValue (follows_op _)
  | .arithmetic op lhs rhs => by
      rw [Term.lower]
      exact .ofValue (((rhs.uniform_lower options).value.append
        (lhs.uniform_lower options).value).append (follows_emit_unlabelled op.label_code))
  | .connective op lhs rhs => by
      rw [Term.lower]
      exact .connect op (lhs.uniform_lower options) (rhs.uniform_lower options)
  | .access source index => by
      by_cases h : ∃ r, source = .region r
      · obtain ⟨r, rfl⟩ := h
        rw [Term.lower]
        exact .ofValue ((index.uniform_lower options).value.append
          (follows_emit_unlabelled (List.forall_mem_singleton.mpr r.label_load)))
      · obtain ⟨e, he⟩ := Term.lower_access_of_ne options index fun r heq => h ⟨r, heq⟩
        rw [he]
        exact .ofValue (follows_fail e)
  | .region r => by
      rw [Term.lower]
      exact .ofValue (follows_fail _)
  | .literal l => by
      rw [Term.lower]
      exact .ofValue (follows_pushLiteral options l)
  | .unknown => by
      rw [Term.lower]
      exact .ofValue (follows_fail _)

theorem follows_lowerSlots (options : CompilerOptions) : ∀ (slot : Nat) (values : List Term),
    Follows [] (lowerSlots options slot values) (lowerSlots options slot values)
  | slot, [] => by
      rw [lowerSlots]
      exact follows_emit .nil
  | slot, t :: rest => by
      rw [lowerSlots]
      exact (((t.uniform_lower options).value.append (follows_pushSlot options slot)).append
        (follows_op _)).append (follows_lowerSlots options (slot + 1) rest)

theorem follows_lowerResult (options : CompilerOptions) (o : Opcode) (values : List Term) :
    Follows [] (lowerResult options (.op o) values) (lowerResult options (.op o) values) := by
  rw [lowerResult]
  exact (((follows_lowerSlots options 0 values).append
    (follows_pushSlot options values.length)).append (follows_push options 0)).append (follows_op o)

end

/-! ### Sessions -/

namespace Session

/-- The call compiles a term. -/
def Call.isCompile : Call → Bool
  | .compile _ => true
  | .label _ | .freshLabel => false

/-- The session after some calls. -/
def afterAll (s : Session) (calls : List Call) : Session := calls.foldl after s

/-- The outcomes of the terms that are compiled in some calls, in order. -/
def outcomes (s : Session) : List Call → List (Except CompileError Unit)
  | [] => []
  | .compile t :: rest => (s.compile t).2 :: (s.after (.compile t)).outcomes rest
  | .label name :: rest => (s.after (.label name)).outcomes rest
  | .freshLabel :: rest => (s.after .freshLabel).outcomes rest

/-- The sessions are the same up to the numbers of labels. -/
structure Renumbers (images : List Nat) (s r : Session) : Prop where
  options_eq : r.options = s.options
  labels : s.labels.Renumbers images r.labels
  instructions : List.Forall₂ (Instruction.Renumbered images) s.instructions r.instructions

variable {images : List Nat} {s r : Session}

theorem renumbers_initial (options : CompilerOptions) :
    Renumbers [] { options } { options } := ⟨rfl, .initial, .nil⟩

/-- Compiling the same term keeps two sessions the same up to the numbers of labels. -/
theorem Renumbers.compile (h : Renumbers images s r) (t : Term) :
    (∃ after, Renumbers after (s.compile t).1 (r.compile t).1) ∧
      (r.compile t).2 = (s.compile t).2 := by
  obtain ⟨after, hmore, hemission⟩ :=
    (t.uniform_lower s.options).anyValue _ _ _ List.prefix_rfl h.labels
  rw [Session.compile, Session.compile, h.options_eq]
  refine ⟨⟨after, h.options_eq, hemission.labels, ?_⟩, ?_⟩
  · exact List.rel_append (renumbered_mono h.instructions hmore) hemission.code
  · rw [run, run]
    simp only [hemission.failure_eq]

/-- Calls keep two sessions the same up to the numbers of labels if the first one is
asked for nothing but the terms. -/
theorem Renumbers.afterAll (h : Renumbers images s r) (calls : List Call) :
    (∃ after, Renumbers after (s.afterAll (calls.filter Call.isCompile)) (r.afterAll calls)) ∧
      r.outcomes calls = s.outcomes (calls.filter Call.isCompile) := by
  induction calls generalizing images s r with
  | nil => exact ⟨⟨images, h⟩, rfl⟩
  | cons c rest ih =>
      cases c with
      | label name => exact ih ⟨h.options_eq, h.labels.named_right name, h.instructions⟩
      | freshLabel => exact ih ⟨h.options_eq, h.labels.fresh_right, h.instructions⟩
      | compile t =>
          obtain ⟨⟨middle, hmiddle⟩, houtcome⟩ := h.compile t
          obtain ⟨hafter, houtcomes⟩ := ih hmiddle
          exact ⟨hafter, congrArg₂ List.cons houtcome houtcomes⟩

/-- All that a session has emitted for terms has an encoding once its labels are
resolved. -/
theorem assemblable_afterAll (hs : ∀ i ∈ s.instructions, i.Assemblable) (calls : List Call) :
    ∀ i ∈ (s.afterAll calls).instructions, i.Assemblable := by
  induction calls generalizing s with
  | nil => exact hs
  | cons c rest ih =>
      refine ih ?_
      cases c with
      | label name => exact hs
      | freshLabel => exact hs
      | compile t =>
          exact List.forall_mem_append.mpr
            ⟨hs, ((t.emitsFed_lower s.options).value s.labels).assemblable⟩

end Session

/-! ### Renaming -/

/-- The label that stands for one of the first session. Labels that it has not allocated
stay out of the way of the images, which are below the bound. -/
def imageOf (images : List Nat) (bound : Nat) : Int → Int
  | .ofNat k => images[k]?.getD (bound + k)
  | .negSucc k => .negSucc k

theorem imageOf_of_some {images : List Nat} {k m : Nat} (h : images[k]? = some m)
    (bound : Nat) : imageOf images bound k = m := by
  show ((images[k]?.getD (bound + k) : Nat) : Int) = m
  rw [h]
  rfl

/-- Labels with images have different ones, those without are told apart by their own
numbers, and the bound is between the two. -/
theorem image_injective {images : List Nat} {bound : Nat} (hnodup : images.Nodup)
    (hlt : ∀ m ∈ images, m < bound) :
    Function.Injective fun k => images[k]?.getD (bound + k) := by
  have himage : ∀ {k m : Nat}, images[k]? = some m → m < bound := fun hk =>
    hlt _ (List.mem_of_getElem? hk)
  intro j k h
  dsimp only at h
  cases hj : images[j]? with
  | some m =>
      have hm := himage hj
      cases hk : images[k]? with
      | some m' =>
          rw [hj, hk] at h
          obtain rfl : m = m' := h
          obtain ⟨hlen, -⟩ := List.getElem?_eq_some_iff.mp hj
          exact (List.getElem?_inj hlen hnodup).mp (hj.trans hk.symm)
      | none =>
          rw [hj, hk, Option.getD_some, Option.getD_none] at h
          omega
  | none =>
      cases hk : images[k]? with
      | some m' =>
          have hm' := himage hk
          rw [hj, hk, Option.getD_some, Option.getD_none] at h
          omega
      | none =>
          rw [hj, hk, Option.getD_none, Option.getD_none] at h
          exact Nat.add_left_cancel h

theorem imageOf_injective {images : List Nat} {bound : Nat} (hnodup : images.Nodup)
    (hlt : ∀ m ∈ images, m < bound) : Function.Injective (imageOf images bound) := by
  rintro (j | j) (k | k) h
  · exact congrArg Int.ofNat (image_injective hnodup hlt (Int.ofNat.inj h))
  · cases h
  · cases h
  · exact h

theorem Instruction.Renumbered.eq_rename {images : List Nat} {i j : Instruction}
    (h : i.Renumbered images j) (bound : Nat) : j = i.rename (imageOf images bound) := by
  cases h with
  | unlabelled hlabel =>
      obtain ⟨mnemonic, data, label⟩ := i
      obtain rfl : label = none := hlabel
      rfl
  | @labelled mnemonic data k m hk =>
      show _ = (⟨mnemonic, data, some (imageOf images bound k)⟩ : Instruction)
      rw [imageOf_of_some hk]

theorem eq_map_rename {images : List Nat} {code code' : List Instruction}
    (h : List.Forall₂ (Instruction.Renumbered images) code code') (bound : Nat) :
    code' = code.map (Instruction.rename (imageOf images bound)) := by
  induction h with
  | nil => rfl
  | cons hi _ ih => rw [List.map_cons, ← hi.eq_rename bound, ← ih]

/-- Whatever else a new session is asked for between the terms that it compiles, labels
of any names and labels of its own, each of its terms has the outcome that it has in a
session that is asked for nothing else, and the instructions are the same under an
injective renaming of labels. They assemble to the same bytes, or fail in both sessions
for the same fault of a label. -/
theorem Session.compile_despite_labels (options : CompilerOptions) (calls : List Call) :
    let terms := calls.filter Call.isCompile
    let plain := ({ options } : Session).afterAll terms
    let busy := ({ options } : Session).afterAll calls
    ({ options } : Session).outcomes calls = ({ options } : Session).outcomes terms ∧
      (∃ ρ : Int → Int, Function.Injective ρ ∧
        busy.instructions = plain.instructions.map (Instruction.rename ρ)) ∧
      ((∃ code, plain.assemble = .ok code ∧ busy.assemble = .ok code) ∨
        ∃ e e' fault, plain.assemble = .error e ∧ busy.assemble = .error e' ∧
          e.labelFault? = some fault ∧ e'.labelFault? = some fault) := by
  obtain ⟨⟨images, h⟩, houtcomes⟩ := (Session.renumbers_initial options).afterAll calls
  have hρ := imageOf_injective h.labels.nodup h.labels.lt_next
  have hcode := eq_map_rename h.instructions (({ options } : Session).afterAll calls).labels.next
  refine ⟨houtcomes, ⟨_, hρ, hcode⟩, ?_⟩
  have hassemble := Assembly.assemble_rename hρ
    (({ options } : Session).afterAll (calls.filter Call.isCompile)).instructions
  rw [← hcode] at hassemble
  rw [Session.assemble, Session.assemble, hassemble]
  cases hplain : Assembly.assemble
      (({ options } : Session).afterAll (calls.filter Call.isCompile)).instructions with
  | ok code => exact Or.inl ⟨code, rfl, rfl⟩
  | error e =>
      have hassemblable := Session.assemblable_afterAll (s := { options }) (List.forall_mem_nil _)
        (calls.filter Call.isCompile)
      obtain ⟨fault, hfault⟩ := (Assembly.defect_of_error hassemblable hplain).exists_labelFault
      exact Or.inr ⟨e, _, fault, rfl, rfl, hfault,
        (AssemblyError.labelFault?_rename _ e).trans hfault⟩

end EvmToolchain
