import StackScript.Value

namespace StackScript

def nameBytes (name : String) : List UInt8 :=
  name.toUTF8.data.toList

theorem nameBytes_injective {a b : String} (h : nameBytes a = nameBytes b) : a = b :=
  String.toByteArray_inj.mp <| ByteArray.ext <| Array.toList_inj.mp h

theorem nameBytes_lt_of_not_lt {a b : String} (h : ¬nameBytes a < nameBytes b) (ne : a ≠ b) :
    nameBytes b < nameBytes a :=
  Decidable.byContradiction fun hn =>
    ne <| nameBytes_injective <| List.le_antisymm (List.not_lt.mp hn) (List.not_lt.mp h)

-- A finite map from names to values. The entries are kept in strictly increasing order of the bytes
-- of their names, so a scope is determined by what it binds, and its text by the scope.
structure Scope where
  entries : List (String × Value)                                := []
  sorted  : entries.Pairwise (nameBytes ·.fst < nameBytes ·.fst) := by simp

namespace Scope

def insertEntry (name : String) (v : Value) : List (String × Value) → List (String × Value)
  | []      => [(name, v)]
  | e :: es =>
    if nameBytes name < nameBytes e.1 then (name, v) :: e :: es
    else if name = e.1 then (name, v) :: es
    else e :: insertEntry name v es

theorem mem_insertEntry (h : e ∈ insertEntry name v es) : e = (name, v) ∨ e ∈ es := by
  induction es <;> simp only [insertEntry] at h
  case nil => simp_all
  case cons => grind

theorem insertEntry_sorted {es : List (String × Value)}
    (h : es.Pairwise (nameBytes ·.fst < nameBytes ·.fst)) :
    (insertEntry name v es).Pairwise (nameBytes ·.fst < nameBytes ·.fst) := by
  induction es <;> simp only [insertEntry]
  case nil => simp
  case cons e es hi =>
    have ⟨he, hs⟩ := List.pairwise_cons.mp h
    split
    case isTrue hlt =>
      refine List.pairwise_cons.mpr ⟨fun e' he' => ?_, h⟩
      cases he'
      case head => exact hlt
      case tail he' => exact List.lt_trans hlt (he _ he')
    case isFalse hlt =>
      split
      case isTrue heq => exact List.pairwise_cons.mpr ⟨heq ▸ he, hs⟩
      case isFalse hne =>
        refine List.pairwise_cons.mpr ⟨fun e' he' => ?_, hi hs⟩
        cases mem_insertEntry he'
        case inl h' => exact h' ▸ nameBytes_lt_of_not_lt hlt hne
        case inr h' => exact he _ h'

def empty : Scope := {}

def get? (scope : Scope) (name : String) : Option Value :=
  scope.entries.lookup name

def insert (scope : Scope) (name : String) (v : Value) : Scope where
  entries := insertEntry name v scope.entries
  sorted  := insertEntry_sorted scope.sorted

def ofList (bindings : List (String × Value)) : Scope :=
  bindings.foldl (fun scope (name, v) => scope.insert name v) empty

def base : Scope :=
  ofList (Native.all.map fun op => (op.name, .native op))

def same (scope₁ scope₂ : Scope) : Bool :=
  scope₁.entries.map (·.1) == scope₂.entries.map (·.1) &&
  Value.allSame (scope₁.entries.map (·.2)) (scope₂.entries.map (·.2))

end Scope
end StackScript
