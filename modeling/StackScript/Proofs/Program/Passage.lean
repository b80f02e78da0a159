import Mathlib.Logic.Relation
import StackScript.Proofs.Bytecode.Part
import StackScript.Proofs.Program.Outside

/-!
The passages of a program outside of its functions. A passage is a part of the program together with
the offset at which its code begins and the draft from which it is assembled. The code of a passage
stands in the code of the whole at its offset (`Passage.Within.placed`), and the names that the
statements outside of functions leave alone mean the same in all passages (`Passage.Within.spared`).
-/

set_option autoImplicit false
set_option relaxedAutoImplicit false

namespace StackScript

open Instruction (size)
open Relation (ReflTransGen)

/-! ### Parts of programs -/

namespace Part

/-- A `let` gives its name a meaning before its value is assembled. -/
def opening : Part → Draft → Draft
  | stmt (.bind name _) _, draft => { draft with scopes := (draft.scopes.define name).2 }
  | _, draft => draft

/-- The next smaller parts in the order of their code, without the bodies of functions. Before the
number of bytes that are before the part, but behind the one before it. -/
def parts : Part → List (Nat × Part)
  | expr (.unary _ operand) => [(0, expr operand)]
  | expr (.binary op left right) =>
    if op = "<" then [(0, expr right), (0, expr left)] else [(0, expr left), (0, expr right)]
  | expr (.branch condition consequence none) =>
    [(0, expr condition), (3, stmts consequence .keep)]
  | expr (.branch condition consequence (some alternative)) =>
    [(0, expr condition), (3, stmts consequence .keep), (3, stmts alternative .keep)]
  | expr (.call callee arguments) => [(0, expr callee), (0, exprs arguments)]
  | expr (.array elements) => [(0, exprs elements)]
  | expr (.hash entries) => [(0, pairs entries)]
  | expr (.index collection position) => [(0, expr collection), (0, expr position)]
  | expr (.int _) | expr (.str _) | expr (.bool _) | expr (.ident _) | expr (.function ..) => []
  | stmt (.eval tree) _ | stmt (.bind _ tree) _ | stmt (.ret tree) _ => [(0, expr tree)]
  | stmts [] _ | exprs [] | pairs [] => []
  | stmts (first :: rest) ending =>
    [(0, stmt first (if rest.isEmpty then ending else .discard)), (0, stmts rest ending)]
  | exprs (first :: rest) => [(0, expr first), (0, exprs rest)]
  | pairs ((key, value) :: rest) => [(0, expr key), (0, expr value), (0, pairs rest)]

/-- The code of the parts stands in this code, in order. -/
inductive Composed : List (Nat × Part) → Nat → Draft → List Instruction → Prop
  | done (start : Nat) (draft : Draft) (code : List Instruction) : Composed [] start draft code
  | more {gap start : Nat} {part : Part} {rest : List (Nat × Part)} {draft middle : Draft}
    {code before own behind : List Instruction} (hcode : code = before ++ own ++ behind)
    (hgap : size before = gap) (hown : part.assemble (start + gap) draft = .ok own middle)
    (hrest : Composed rest (start + gap + size own) middle behind) :
    Composed ((gap, part) :: rest) start draft code

variable {part : Part} {start : Nat} {draft middle after : Draft}
  {code own behind : List Instruction}

theorem Composed.next {rest : List (Nat × Part)} (hown : part.assemble start draft = .ok own middle)
    (hrest : Composed rest (start + size own) middle behind) :
    Composed ((0, part) :: rest) start draft (own ++ behind) :=
  .more (List.nil_append (own ++ behind)).symm Instruction.size_nil hown hrest

theorem Composed.single (hown : part.assemble start draft = .ok own middle) :
    Composed [(0, part)] start draft own :=
  List.append_nil own ▸ .next hown (.done _ _ [])

/-- The code of the parts with an instruction behind it. -/
theorem Composed.append {parts : List (Nat × Part)} {last : List Instruction}
    (h : Composed parts start draft code) : Composed parts start draft (code ++ last) := by
  induction h with
  | done start draft code => exact .done _ _ _
  | more hcode hgap hown _ ih => exact .more (by simp [hcode]) hgap hown ih

end Part

theorem Assembly.instruction_eq_ok {opcode : Opcode} {operands : List Nat} {draft after : Draft}
    {code : List Instruction} (h : instruction opcode operands draft = .ok code after) :
    code = [⟨opcode, operands⟩] ∧ after = draft := by
  unfold instruction at h
  split at h <;> cases h
  exact ⟨rfl, rfl⟩

namespace Part

open Assembly

variable {part : Part} {start : Nat} {draft after : Draft} {code : List Instruction}

/-- The parts of `Part.parts`, as the shape has them. -/
def Shape.passages : Shape → List (Nat × Part)
  | literal _ | ident _ | function .. => []
  | sequence parts _ => parts.map (0, ·)
  | branch condition consequence alternative =>
    (0, condition) :: (3, consequence) :: alternative.toList.map (3, ·)
  | binding _ value => [(0, value)]

def Shape.opening (draft : Draft) : Shape → Draft
  | binding name _ => { draft with scopes := (draft.scopes.define name).2 }
  | _ => draft

theorem parts_eq (part : Part) : part.parts = part.shape.passages := by
  cases part with
  | expr tree =>
    cases tree with
    | binary op left right =>
      rw [parts, shape]
      split <;> rfl
    | branch condition consequence alternative => cases alternative <;> rfl
    | _ => rfl
  | stmt tree ending => cases tree <;> rfl
  | stmts trees | exprs trees | pairs trees => cases trees <;> rfl

theorem opening_eq (part : Part) (draft : Draft) :
    part.opening draft = part.shape.opening draft := by
  cases part with
  | expr tree =>
    cases tree with
    | binary op left right =>
      rw [shape]
      split <;> rfl
    | _ => rfl
  | stmt tree ending => cases tree <;> rfl
  | stmts trees | exprs trees | pairs trees => cases trees <;> rfl

theorem composed_inOrder {parts : List Part}
    (h : assembleInOrder parts start draft = .ok code after) :
    Composed (parts.map (0, ·)) start draft code := by
  induction parts generalizing start draft code with
  | nil => exact .done _ _ _
  | cons part rest ih =>
    obtain ⟨first, _, hfirst, h⟩ := bind_eq_ok_iff.mp h
    obtain ⟨others, _, hothers, ⟨⟩⟩ := bind_eq_ok_iff.mp h
    exact .next hfirst (ih hothers)

theorem composed_branch {condition consequence : Part} {alternative : Option Part}
    (h : (Shape.branch condition consequence alternative).assemble start draft = .ok code after) :
    Composed (Shape.branch condition consequence alternative).passages start draft code := by
  obtain ⟨test, _, htest, h⟩ := bind_eq_ok_iff.mp h
  obtain ⟨first, _, hfirst, h⟩ := bind_eq_ok_iff.mp h
  obtain ⟨pass, _, hpass, hrest⟩ := bind_eq_ok_iff.mp h
  obtain ⟨rfl, rfl⟩ := instruction_eq_ok hpass
  obtain ⟨second, _, hsecond, hlast⟩ := bind_eq_ok_iff.mp hrest
  obtain ⟨finish, _, hfinish, ⟨⟩⟩ := bind_eq_ok_iff.mp hlast
  obtain ⟨rfl, rfl⟩ := instruction_eq_ok hfinish
  simp only [List.append_assoc]
  refine .next htest (.more (List.append_assoc _ _ _).symm rfl hfirst ?_)
  cases alternative with
  | none => exact .done _ _ _
  | some alternative =>
    exact .more (List.append_nil ([_] ++ second)).symm rfl hsecond (.done _ _ [])

/-- The code of a part is made of the code of its parts. -/
theorem composed_parts (h : part.assemble start draft = .ok code after) :
    Composed part.parts start (part.opening draft) code := by
  rw [part.assemble_eq] at h
  rw [part.parts_eq, part.opening_eq]
  cases hshape : part.shape with
  | literal | ident | function => exact .done _ _ _
  | sequence parts closing =>
    rw [hshape] at h
    obtain ⟨own, _, hown, h⟩ := bind_eq_ok_iff.mp h
    obtain ⟨last, _, _, ⟨⟩⟩ := bind_eq_ok_iff.mp h
    exact (composed_inOrder hown).append
  | branch condition consequence alternative =>
    rw [hshape] at h
    exact composed_branch h
  | binding name value =>
    rw [hshape] at h
    obtain ⟨symbol, _, ⟨⟩, h⟩ := bind_eq_ok_iff.mp h
    obtain ⟨own, _, hown, h⟩ := bind_eq_ok_iff.mp h
    obtain ⟨last, _, _, ⟨⟩⟩ := bind_eq_ok_iff.mp h
    exact .append (.single hown)

theorem Shape.mem_pieces_of_mem_passages {shape : Shape} {passage : Nat × Part}
    (h : passage ∈ shape.passages) : passage.2 ∈ shape.pieces := by
  cases shape with
  | literal | ident | function => cases h
  | sequence parts closing =>
    obtain ⟨piece, hmem, rfl⟩ := List.mem_map.mp h
    exact hmem
  | branch condition consequence alternative =>
    simp only [passages, List.mem_cons, List.mem_map] at h
    rcases h with rfl | rfl | ⟨piece, hmem, rfl⟩
    · exact List.mem_cons_self
    · exact List.mem_cons_of_mem _ List.mem_cons_self
    · exact List.mem_cons_of_mem _ (List.mem_cons_of_mem _ hmem)
  | binding name value =>
    obtain rfl := List.mem_singleton.mp h
    exact List.mem_cons_self

theorem outside_parts (part : Part) :
    ∀ piece ∈ part.parts, ∀ stmt ∈ piece.2.outside, stmt ∈ part.outside := by
  intro piece hmem
  refine (part.outside_pieces ?_ piece.2 (Shape.mem_pieces_of_mem_passages ?_)).1
  · rintro parameters body name rfl
    cases hmem
  · rwa [← part.parts_eq]

section Spared

variable {names : List String}

theorem spared_opening (h : ∀ stmt ∈ part.outside, stmt.Spares names False) :
    Draft.Spared names draft (part.opening draft) := by
  cases part with
  | stmt tree ending =>
    cases tree with
    | bind name value =>
      have hname : True → name ∉ names := fun _ ↦ h _ List.mem_cons_self
      exact ((spares_define hname fun _ ↦ trivial).at_ok rfl).1
    | ret | eval => exact .refl names draft
  | expr | stmts | exprs | pairs => exact .refl names draft

theorem spared_assemble (part : Part) (h : ∀ stmt ∈ part.outside, stmt.Spares names False)
    (hcode : part.assemble start draft = .ok code after) : Draft.Spared names draft after := by
  have hspares : Assembly.Spares names True (part.assemble start) draft (Stays (True ∧ False)) :=
    part.spares True (fun _ ↦ ⟨h, False.elim⟩) start draft
  exact ((hspares fun _ ↦ trivial).at_ok hcode).1

end Spared

end Part

/-! ### Passages -/

structure Passage where
  part : Part
  start : Nat
  draft : Draft

namespace Passage

/-- The passage is one of the parts that are assembled from here on. -/
inductive Among : List (Nat × Part) → Nat → Draft → Passage → Prop
  | here (gap : Nat) (part : Part) (rest : List (Nat × Part)) (start : Nat) (draft : Draft) :
    Among ((gap, part) :: rest) start draft ⟨part, start + gap, draft⟩
  | later {gap start : Nat} {part : Part} {rest : List (Nat × Part)} {draft middle : Draft}
    {own : List Instruction} {passage : Passage}
    (hown : part.assemble (start + gap) draft = .ok own middle)
    (hrest : Among rest (start + gap + size own) middle passage) :
    Among ((gap, part) :: rest) start draft passage

/-- The second passage is one of the next smaller ones in the first. -/
def Holds (outer inner : Passage) : Prop :=
  Among outer.part.parts outer.start (outer.part.opening outer.draft) inner

/-- The first passage is somewhere in the second, outside of its functions. -/
def Within (inner outer : Passage) : Prop :=
  ReflTransGen Holds outer inner

variable {outer inner : Passage} {code : List Instruction} {after : Draft}

/-- The code of the passage stands in the code that begins at the offset. -/
def Placed (passage : Passage) (start : Nat) (code : List Instruction) : Prop :=
  ∃ before own behind last, passage.part.assemble passage.start passage.draft = .ok own last ∧
    code = before ++ own ++ behind ∧ passage.start = start + size before

theorem Among.placed {parts : List (Nat × Part)} {start : Nat} {draft : Draft}
    (h : Among parts start draft inner) (hcode : Part.Composed parts start draft code) :
    inner.Placed start code := by
  induction h generalizing code with
  | here gap part rest start draft =>
    cases hcode with
    | more hcode hgap hown hrest =>
      exact ⟨_, _, _, _, hown, hcode, congrArg (start + ·) hgap.symm⟩
  | @later _ _ _ _ _ _ first _ hfirst _ ih =>
    cases hcode with
    | @more _ _ _ _ _ _ _ before _ behind hcode hgap hsame hrest =>
      obtain ⟨rfl, rfl⟩ := EStateM.Result.ok.inj (hfirst.symm.trans hsame)
      obtain ⟨skipped, own, last, draft, hinner, hbehind, hstart⟩ := ih hrest
      refine ⟨before ++ first ++ skipped, own, last, draft, hinner, ?_, ?_⟩
      · rw [hcode, hbehind]
        simp only [List.append_assoc]
      · simp only [hstart, hgap, Instruction.size_append, Nat.add_assoc]

/-- The code of a passage stands in the code of one around it. -/
theorem Within.placed (h : inner.Within outer)
    (hcode : outer.part.assemble outer.start outer.draft = .ok code after) :
    inner.Placed outer.start code := by
  induction h with
  | refl => exact ⟨[], code, [], after, hcode, by simp, rfl⟩
  | tail _ hholds ih =>
    obtain ⟨before, own, behind, last, hown, hsplit, hstart⟩ := ih
    obtain ⟨more, inner, less, end_, hinner, hinside, hnext⟩ :=
      Among.placed hholds (Part.composed_parts hown)
    refine ⟨before ++ more, inner, less ++ behind, end_, hinner, ?_, ?_⟩
    · rw [hsplit, hinside]
      simp only [List.append_assoc]
    · rw [hnext, hstart, Instruction.size_append, Nat.add_assoc]

/-! ### Names in passages -/

variable {names : List String}

/-- Nothing in the passage gives one of the names a new meaning. -/
def Spares (names : List String) (passage : Passage) : Prop :=
  ∀ stmt ∈ passage.part.outside, stmt.Spares names False

theorem Among.spared {parts : List (Nat × Part)} {start : Nat} {draft : Draft}
    (h : Among parts start draft inner)
    (hspares : ∀ piece ∈ parts, ∀ stmt ∈ piece.2.outside, stmt.Spares names False) :
    Draft.Spared names draft inner.draft ∧ inner.Spares names := by
  induction h with
  | here gap part rest start draft => exact ⟨.refl names draft, hspares _ List.mem_cons_self⟩
  | later hown _ ih =>
    rw [List.forall_mem_cons] at hspares
    obtain ⟨hspared, hinner⟩ := ih hspares.2
    exact ⟨(Part.spared_assemble _ hspares.1 hown).trans hspared, hinner⟩

/-- Names that a passage spares mean the same everywhere in it. -/
theorem Within.spared (h : inner.Within outer) (hspares : outer.Spares names) :
    Draft.Spared names outer.draft inner.draft ∧ inner.Spares names := by
  induction h with
  | refl => exact ⟨.refl names _, hspares⟩
  | tail _ hholds ih =>
    obtain ⟨hspared, hmiddle⟩ := ih
    obtain ⟨hnext, hinner⟩ := Among.spared hholds fun piece hpiece stmt hstmt ↦
      hmiddle stmt (Part.outside_parts _ piece hpiece stmt hstmt)
    exact ⟨(hspared.trans (Part.spared_opening hmiddle)).trans hnext, hinner⟩

/-- Where a name of a global is read that the passage spares, the code loads that global. -/
theorem Within.loads {name : String} {slot start : Nat} {draft : Draft}
    (h : Within ⟨.expr (.ident name), start, draft⟩ outer) (hspares : outer.Spares [name])
    (houter : outer.draft.scopes.outer = [])
    (hfind : outer.draft.scopes.current.find? name = some ⟨name, .global, slot⟩)
    (hcode : outer.part.assemble outer.start outer.draft = .ok code after) :
    ∃ before behind, code = before ++ [⟨.getGlobal, [slot]⟩] ++ behind ∧
      start = outer.start + size before := by
  obtain ⟨before, own, behind, last, hown, hsplit, hstart⟩ := h.placed hcode
  have hspared := (h.spared hspares).1
  have hinner : draft.scopes.outer = [] := hspared.scopes.outer_eq_nil.mpr houter
  have hfound : draft.scopes.current.find? name = some ⟨name, .global, slot⟩ := by
    have hsame := hspared.kept name (List.mem_singleton.mpr rfl)
    rw [Scopes.global, Scopes.global, hinner, houter] at hsame
    exact hsame.trans hfind
  have hresolve : Assembly.resolve name draft = .ok ⟨name, .global, slot⟩ draft := by
    obtain ⟨constants, current, outer⟩ := draft
    obtain rfl : outer = [] := hinner
    simp only [Assembly.resolve, Scopes.resolve, Scopes.resolveFrom, hfound]
  have hload : (Part.expr (.ident name)).assemble start draft =
      Assembly.instruction .getGlobal [slot] draft := by
    rw [Part.assemble, Expr.assemble, bind_of_ok hresolve]
    rfl
  obtain ⟨rfl, _⟩ := Assembly.instruction_eq_ok (hload.symm.trans hown)
  exact ⟨before, behind, hsplit, hstart⟩

end Passage

end StackScript
