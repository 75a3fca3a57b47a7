import StackScript.CommandLine.Scan

namespace StackScript
namespace CommandLine

def Once (given : List Given) : Prop :=
  (given.map Given.slot).Nodup

instance : DecidablePred Once :=
  fun given => inferInstanceAs (Decidable (given.map Given.slot).Nodup)

section Once

variable {given : List Given}

-- If `f` looks at what can be given only once, it does not matter that it looks from the left.
theorem Once.findSome? {f : Given → Option α} (h : Once given) (hm : g ∈ given)
    (hg : f g = some x) (hf : ∀ g', (f g').isSome → g'.slot = g.slot) :
    given.findSome? f = some x := by
  induction given
  case nil => cases hm
  case cons first rest hi =>
    have ⟨hfirst, hrest⟩ := List.nodup_cons.mp h
    rw [List.findSome?_cons]
    cases hm
    case head => rw [hg]
    case tail hm =>
      have hn : f first = none := by
        refine Option.not_isSome_iff_eq_none.mp fun hs => hfirst ?_
        rw [hf first hs]
        exact List.mem_map_of_mem hm
      rw [hn]
      exact hi hrest hm

end Once

namespace Scan

variable {g given : List Given}

end Scan
end CommandLine
end StackScript
