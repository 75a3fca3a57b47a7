import Mathlib.Data.List.Nodup
import StackScript.Snapshot
import StackScript.Proofs.Scope

namespace StackScript

namespace Scope

variable {scope : Scope} {es es' : List (String × Value)}

-- The bindings of a scope as a walk through the map meets them, each once and in whatever order.
structure Listing (scope : Scope) (bindings : List (String × Value)) : Prop where
  once : (bindings.map (·.1)).Nodup
  mem  : ∀ name v, (name, v) ∈ bindings ↔ scope.get? name = some v

def sortByName (bindings : List (String × Value)) : List (String × Value) :=
  bindings.mergeSort fun a b => nameBytes a.1 ≤ nameBytes b.1

theorem sortByName_perm (es : List (String × Value)) : (sortByName es).Perm es :=
  List.mergeSort_perm es _

-- Distinct names have distinct bytes, so the order is strict.
theorem sortByName_sorted (h : (es.map (·.1)).Nodup) :
    (sortByName es).Pairwise (nameBytes ·.fst < nameBytes ·.fst) := by
  have hle : (sortByName es).Pairwise fun a b => decide (nameBytes a.1 ≤ nameBytes b.1) := by
    refine List.pairwise_mergeSort (fun a b c hab hbc => ?_) (fun a b => ?_) es
    · exact decide_eq_true (List.le_trans (of_decide_eq_true hab) (of_decide_eq_true hbc))
    · simpa using List.le_total (nameBytes a.1) (nameBytes b.1)
  have hne : (sortByName es).Pairwise (·.fst ≠ ·.fst) :=
    List.pairwise_map.mp (((sortByName_perm es).map Prod.fst).nodup_iff.mpr h)
  refine hle.imp₂ (fun a b hab hn => ?_) hne
  exact nameBytes_lt_of_not_lt (List.not_lt.mpr (of_decide_eq_true hab)) hn.symm

namespace Listing

theorem of_sorted (hs : es.Pairwise (nameBytes ·.fst < nameBytes ·.fst))
    (hm : ∀ name v, (name, v) ∈ es ↔ scope.get? name = some v) : scope.Listing es where
  once := by
    refine List.pairwise_map.mpr (hs.imp fun {a b} hlt he => ?_)
    rw [he] at hlt
    exact List.lt_irrefl _ hlt
  mem  := hm

theorem of_perm (h : scope.Listing es) (hp : es'.Perm es) : scope.Listing es' where
  once       := (hp.map _).nodup_iff.mpr h.once
  mem name v := hp.mem_iff.trans (h.mem name v)

theorem perm (h : scope.Listing es) (h' : scope.Listing es') : es.Perm es' := by
  have hn := List.Nodup.of_map _ h.once
  have hn' := List.Nodup.of_map _ h'.once
  refine (List.perm_ext_iff_of_nodup hn hn').mpr fun ⟨name, v⟩ => ?_
  exact (h.mem name v).trans (h'.mem name v).symm

end Listing

theorem listing_entries (scope : Scope) : scope.Listing scope.entries :=
  .of_sorted scope.sorted fun _ _ => mem_entries_iff

-- There is one sorted listing.
theorem Listing.eq_entries (h : scope.Listing es)
    (hs : es.Pairwise (nameBytes ·.fst < nameBytes ·.fst)) : es = scope.entries :=
  List.Perm.eq_of_pairwise (fun _ _ _ _ hab hba => absurd hab (List.lt_asymm hba)) hs scope.sorted
    (h.perm scope.listing_entries)

theorem Listing.sortByName_eq (h : scope.Listing es) : sortByName es = scope.entries :=
  (h.of_perm (sortByName_perm es)).eq_entries (sortByName_sorted h.once)

-- Scopes that bind the same names to the same values are equal.
theorem eq_of_get? {scope' : Scope} (h : ∀ name, scope.get? name = scope'.get? name) :
    scope = scope' := by
  have hl : scope'.Listing scope.entries :=
    .of_sorted scope.sorted fun name v => by rw [mem_entries_iff, h]
  have he := hl.eq_entries scope.sorted
  cases scope
  cases scope'
  cases he
  rfl

-- What a snapshot shows of a scope: nothing, if it is the base and binds only built-in operations,
-- and otherwise each of its bindings once.
structure ShownAs (scope : Scope) (index : Nat) (part : String) : Prop where
  omitted : part = "" ↔ index = 0 ∧ ∀ name v, scope.get? name = some v → v.isNative
  listed  : part ≠ "" → ∃ entries : List (String × Value),
            entries.Pairwise (nameBytes ·.fst < nameBytes ·.fst) ∧
            (∀ name v, (name, v) ∈ entries ↔ scope.get? name = some v) ∧
            part = " scope" ++ toString index ++ ": \x7b" ++
              String.join (entries.map fun (name, v) => " " ++ name ++ "=" ++ v.text) ++ " \x7d"

end Scope

namespace Snapshot

open Scope

-- The text of a scope whose bindings are met in the given order and have to be sorted.
def scopeTextFrom (bindings : List (String × Value)) (index : Nat) : String :=
  if index = 0 && bindings.all (·.2.isNative) then
    ""
  else
    " scope" ++ toString index ++ ": \x7b" ++
    String.join ((sortByName bindings).map fun (name, v) => " " ++ name ++ "=" ++ v.text) ++ " \x7d"

-- The text of a snapshot whose scopes are met as the given listings.
def textFrom (stack : Array Value) (listings : List (List (String × Value)))
    (blocks : Array (Array Value)) : String :=
  stackText stack ++
  String.join (listings.zipIdx.map fun (bindings, i) => scopeTextFrom bindings i) ++
  String.join (blocks.toList.zipIdx.map fun (block, i) => blockText block i)

theorem scopeTextFrom_eq (h : scope.Listing bindings) (index : Nat) :
    scopeTextFrom bindings index = scopeText scope index := by
  rw [scopeTextFrom, scopeText, h.sortByName_eq, (h.perm scope.listing_entries).all_eq]

-- The induction is on the scopes, with the index of the first one left open.
theorem scopeTextsFrom_eq {scopes : List Scope} {listings : List (List (String × Value))}
    (h : List.Forall₂ Listing scopes listings) (first : Nat) :
    (listings.zipIdx first).map (fun (bindings, i) => scopeTextFrom bindings i) =
      (scopes.zipIdx first).map fun (scope, i) => scopeText scope i := by
  induction h generalizing first
  case nil          => rfl
  case cons h hs hi => simp [scopeTextFrom_eq h, hi]

theorem textFrom_eq (s : Snapshot) (h : List.Forall₂ Listing s.scopes.toList listings) :
    textFrom s.stack listings s.blocks = s.text := by
  rw [textFrom, text, scopeTextsFrom_eq h]

-- The condition on which a scope is left out, in terms of what it binds.
theorem omits_iff {scope : Scope} {index : Nat} :
    (index = 0 && scope.entries.all (·.2.isNative)) ↔
      index = 0 ∧ ∀ name v, scope.get? name = some v → v.isNative := by
  simp only [Bool.and_eq_true, decide_eq_true_eq, List.all_eq_true, Prod.forall, mem_entries_iff]

theorem shownAs_scopeText (scope : Scope) (index : Nat) :
    scope.ShownAs index (scopeText scope index) := by
  rw [scopeText]
  split
  case isTrue h  => exact ⟨iff_of_true rfl (omits_iff.mp h), fun hn => absurd rfl hn⟩
  case isFalse h =>
    refine ⟨iff_of_false (by simp) (mt omits_iff.mpr h), fun _ => ?_⟩
    exact ⟨scope.entries, scope.sorted, fun _ _ => mem_entries_iff, rfl⟩

theorem text_congr {s s' : Snapshot} (hstack : s'.stack = s.stack) (hblocks : s'.blocks = s.blocks)
    (hscopes : List.Forall₂ (fun a b => ∀ name, a.get? name = b.get? name)
      s'.scopes.toList s.scopes.toList) :
    s'.text = s.text := by
  have he : s'.scopes.toList = s.scopes.toList :=
    List.forall₂_eq_eq_eq ▸ hscopes.imp fun _ _ => eq_of_get?
  rw [text, text, hstack, hblocks, he]

theorem text_canonical (s : Snapshot) :
    (∀ listings, List.Forall₂ Listing s.scopes.toList listings →
      textFrom s.stack listings s.blocks = s.text) ∧
    (∃ parts : List String,
      s.text = stackText s.stack ++ String.join parts ++
        String.join (s.blocks.toList.zipIdx.map fun (block, i) => blockText block i) ∧
      parts.length = s.scopes.size ∧
      ∀ i part (scope : Scope), s.scopes[i]? = some scope → parts[i]? = some part →
        scope.ShownAs i part) ∧
    (∀ histories : List (List (String × Value)),
      List.Forall₂ (fun scope history => ∀ name, scope.get? name = history.reverse.lookup name)
        s.scopes.toList histories →
      { s with scopes := (histories.map Scope.ofList).toArray }.text = s.text) ∧
    (∀ s' : Snapshot, s'.stack = s.stack → s'.blocks = s.blocks →
      List.Forall₂ (fun a b => ∀ name, a.get? name = b.get? name)
        s'.scopes.toList s.scopes.toList →
      s'.text = s.text) := by
  refine ⟨fun _ => s.textFrom_eq, ?_, fun _ h => text_congr rfl rfl ?_, fun _ => text_congr⟩
  · refine ⟨_, rfl, by simp, fun i part scope hs hp => ?_⟩
    have hp : part = scopeText scope i := by simpa [hs, eq_comm] using hp
    exact hp ▸ shownAs_scopeText scope i
  · rw [List.toList_toArray, List.forall₂_map_left_iff]
    refine h.flip.imp fun history scope h name => ?_
    rw [get?_ofList, h]

-- A base of built-in operations, an empty scope, one with a built-in operation, and one with two
-- names whose order is another one by UTF-16 code units.
def layered : List Scope :=
  [.base, .empty, .ofList [("+", .native .add)],
    .ofList [("\uff5a", .symbol "b"), ("😀", .symbol "a")]]

theorem reversed_listings_rendered :
    textFrom #[] (layered.map (·.entries.reverse)) #[] =
      "stack: [] scope1: \x7b \x7d scope2: \x7b +=--+-- \x7d scope3: \x7b \uff5a=/b 😀=/a \x7d" := by
  have ⟨hiterated, _⟩ := text_canonical { scopes := layered.toArray }
  have hl : List.Forall₂ Listing layered (layered.map (·.entries.reverse)) := by
    rw [List.forall₂_map_right_iff, List.forall₂_same]
    exact fun scope _ => scope.listing_entries.of_perm (List.reverse_perm _)
  rw [hiterated _ hl]
  decide +kernel

end Snapshot
end StackScript
