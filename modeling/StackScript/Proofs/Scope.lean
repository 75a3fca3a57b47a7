import StackScript.Scope

namespace StackScript.Scope

theorem lookup_entry (e : String × Value) (es : List (String × Value)) (n : String) :
    (e :: es).lookup n = if n = e.1 then some e.2 else es.lookup n := by
  cases e
  case mk name v =>
    rw [List.lookup_cons]
    by_cases h : n = name
    case pos => simp [h]
    case neg => simp [h, beq_false_of_ne h]

theorem lookup_insertEntry (es : List (String × Value)) (name n : String) (v : Value) :
    (insertEntry name v es).lookup n = if n = name then some v else es.lookup n := by
  induction es <;> simp only [insertEntry]
  case nil => simp [lookup_entry]
  case cons e es hi =>
    split
    case isTrue => simp [lookup_entry]
    case isFalse =>
      split
      case isTrue heq => simp only [lookup_entry]; grind
      case isFalse hne => simp only [lookup_entry, hi]; grind

theorem get?_insert (scope : Scope) (name n : String) (v : Value) :
    (scope.insert name v).get? n = if n = name then some v else scope.get? n :=
  lookup_insertEntry scope.entries name n v

-- The names of the entries are in strictly increasing order, so no entry hides another one.
theorem lookup_of_mem {es : List (String × Value)}
    (h : es.Pairwise (nameBytes ·.fst < nameBytes ·.fst)) (hm : (name, v) ∈ es) :
    es.lookup name = some v := by
  induction es
  case nil => cases hm
  case cons e es hi =>
    have ⟨he, hs⟩ := List.pairwise_cons.mp h
    rw [lookup_entry]
    cases hm
    case head => simp
    case tail hm =>
      have hn : name ≠ e.1 := by
        rintro rfl
        exact List.lt_irrefl _ (he (e.1, v) hm)
      rw [if_neg hn, hi hs hm]

theorem get?_of_mem {scope : Scope} (h : (name, v) ∈ scope.entries) : scope.get? name = some v :=
  lookup_of_mem scope.sorted h

theorem mem_of_lookup {es : List (String × Value)} (h : es.lookup name = some v) :
    (name, v) ∈ es := by
  have ⟨_, _, he, _⟩ := List.lookup_eq_some_iff.mp h
  simp [he]

theorem mem_entries_iff {scope : Scope} : (name, v) ∈ scope.entries ↔ scope.get? name = some v :=
  ⟨get?_of_mem, mem_of_lookup⟩

-- Of the bindings of a name, the last one counts.
theorem get?_ofList (bindings : List (String × Value)) (name : String) :
    (ofList bindings).get? name = bindings.reverse.lookup name := by
  suffices hs : ∀ scope : Scope,
      (bindings.foldl (fun scope b => scope.insert b.1 b.2) scope).get? name =
        (bindings.reverse.lookup name).or (scope.get? name) from
    (hs empty).trans Option.or_none
  induction bindings
  case nil => exact fun _ => rfl
  case cons b bs hi =>
    intro scope
    rw [List.foldl_cons, hi, get?_insert, List.reverse_cons, List.lookup_append, lookup_entry,
      Option.or_assoc]
    split <;> rfl

-- What a scope binds is among the bindings that it was made of.
theorem mem_of_ofList_get? {bindings : List (String × Value)}
    (h : (ofList bindings).get? name = some v) : (name, v) ∈ bindings := by
  rw [get?_ofList] at h
  exact List.mem_reverse.mp (mem_of_lookup h)

theorem base_get? (op : Native) : base.get? op.name = some (.native op) := by
  cases op <;> rfl

end StackScript.Scope
