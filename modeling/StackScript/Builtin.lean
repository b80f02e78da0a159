/-!
The functions that the language provides. Their order fixes the index under which code refers to
each.
-/

set_option autoImplicit false
set_option relaxedAutoImplicit false

namespace StackScript

inductive Builtin where
  | len
  | puts
  | first
  | last
  | rest
  | push
  deriving DecidableEq, Repr, Inhabited

namespace Builtin

def all : List Builtin := [len, puts, first, last, rest, push]

def name : Builtin → String
  | len => "len"
  | puts => "puts"
  | first => "first"
  | last => "last"
  | rest => "rest"
  | push => "push"

def index : Builtin → Nat
  | len => 0
  | puts => 1
  | first => 2
  | last => 3
  | rest => 4
  | push => 5

def ofIndex? (index : Nat) : Option Builtin := all[index]?

@[simp] theorem ofIndex?_index (builtin : Builtin) : ofIndex? builtin.index = some builtin := by
  cases builtin <;> rfl

theorem index_of_ofIndex? {index : Nat} {builtin : Builtin} (h : ofIndex? index = some builtin) :
    builtin.index = index := by
  match index, h with
  | 0, h | 1, h | 2, h | 3, h | 4, h | 5, h => cases h; rfl
  | _ + 6, h => simp [ofIndex?, all] at h

theorem ofIndex?_eq_none_iff {index : Nat} : ofIndex? index = none ↔ 6 ≤ index := by
  simp [ofIndex?, all]

end Builtin

end StackScript
