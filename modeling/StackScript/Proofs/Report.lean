import StackScript.CommandLine.Report
import StackScript.Proofs.Lines
import StackScript.Proofs.Shortening
import StackScript.Proofs.Spelling

namespace StackScript

namespace Run

-- The values that a run has put out.
def outputs (r : Run ε Event α) : List Value :=
  r.trace.filterMap Event.output?

-- The operands that a run leaves, bottom to top, if it comes to its end.
def remainder (r : Run ε κ α) : List Value :=
  match r.result with
  | .ok _    => r.state.stack.toList
  | .error _ => []

end Run

-- The line that shows an event.
def Event.line : Event → String
  | state s    => "state   " ++ s.text
  | popped v s => "pop " ++ v.text ++ "  " ++ s.text
  | output v   => "output  " ++ v.text

theorem Event.InLanguage.oneLine {event : Event} (h : event.InLanguage) : OneLine event.line := by
  cases event
  case state =>
    have hs : OneLine _ := Snapshot.InLanguage.oneLine h
    exact oneLine_append.mpr ⟨by decide, hs⟩
  case popped =>
    have ⟨hv, hs⟩ := h
    simp only [line, oneLine_append]
    exact ⟨⟨⟨by decide, hv.oneLine⟩, by decide⟩, hs.oneLine⟩
  case output =>
    have hv : OneLine _ := Value.Datum.oneLine h
    exact oneLine_append.mpr ⟨by decide, hv⟩

namespace CommandLine

namespace Arguments

variable {a : Arguments} {env : Environment} {text : String} (elapsed : Duration)

end Arguments

end CommandLine
end StackScript
