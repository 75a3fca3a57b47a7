import StackScript.Proofs.Flow
import StackScript.Proofs.RoundTrip

namespace StackScript

-- The values of a program that is given as a text. Numbers are computed, so on the stack there may
-- be any; in a block there are only such as can be read.
def Flow.legible : Flow where
  operand v     := ∀ body, v = .block body → ∀ u ∈ body, u.Legible
  code          := Value.Legible
  number _ _ h  := nomatch h
  body body h   := h body rfl
  block _       := .block
  evaluable v h := by
    refine .inr fun body hb => ?_
    subst hb
    cases h
    case block h => exact h

-- What a block that a program has captured is read back as, and when it is read back as it was.
structure Value.ReadBack (body : List Value) : Prop where
  legible : ∀ v ∈ body, v.Legible
  shown   : readBlock (block body).text = .ok (shownAll body)
  same    : (∃ values, readBlock (block body).text = .ok values ∧ allSame values body) ↔
            ∀ v ∈ body, v.Printable

theorem Value.ReadBack.of_legible {body : List Value} (h : ∀ v ∈ body, v.Legible) :
    ReadBack body := by
  refine ⟨h, readBlock_text h, fun ⟨values, hr, hs⟩ => printable_of_readBlock hr hs, fun hp => ?_⟩
  exact ⟨body, readBlock_of_printable hp, allSame_self fun v hv => (h v hv).same_self⟩

theorem State.Obeys.readBack {s : State} (h : s.Obeys .legible) :
    ∀ body, .block body ∈ s.stack → Value.ReadBack body :=
  fun body hb => .of_legible (h.stack (.block body) hb body rfl)

theorem Token.admitted (h : token ∈ ofSource source) :
    (Call.step token.text).Admitted .legible :=
  fun _ => Lexeme.legible_ofWord (unbroken_of_mem_ofSource h)

namespace Machine

theorem captured_blocks_read_back (limits : Limits) (source : String)
    (before : List Token) (token : Token) (after : List Token)
    (h : Token.ofSource source = before ++ token :: after) :
    let m := ({ limits } : Machine).after (before.map (.step ·.text))
    let r := Op.step token.text (.moments limits) m.state
    (∀ body, .block body ∈ m.state.stack → Value.ReadBack body) ∧
    (∀ moment ∈ r.trace, ∀ body, .block body ∈ moment.state.stack → Value.ReadBack body) ∧
    (∀ body, .block body ∈ (m.step token.text).2.state.stack → Value.ReadBack body) := by
  intro m r
  have hmem (t) (ht : t ∈ before ++ token :: after) : (Call.step t.text).Admitted .legible :=
    Token.admitted (h ▸ ht)
  have hs : m.state.Obeys .legible := by
    refine after_obeys _ .initial _ fun call hc => ?_
    obtain ⟨t, ht, rfl⟩ := List.mem_map.mp hc
    exact hmem t (List.mem_append_left _ ht)
  have hg : Flow.legible.Governs r :=
    Call.governed limits hs (.step token.text) (hmem token (by simp))
  have hl : m.limits = limits := after_limits _ _
  have hf : (m.step token.text).2.state = r.state := by
    have := (m.call_recorded (.step token.text)).2.1
    rwa [hl] at this
  exact ⟨hs.readBack, fun moment hm => (hg.trace moment hm).readBack, hf ▸ hg.state.readBack⟩

-- A program that captures one word in a block.
theorem captured_word (h : Lexeme.ofWord word = .value v) :
    let m := ({ limits := {} } : Machine).after [.step Value.openWord, .step word]
    (m.step Value.closeWord).2.state.stack = #[.block [v]] := by
  simp only [after, List.foldl, call, step, perform, Op.step, h]
  rfl

theorem operator_in_block_read_back :
    let before := [⟨Value.openWord, 1, 1⟩, ⟨"x", 1, 3⟩]
    let m := ({ limits := {} } : Machine).after (before.map fun token : Token => .step token.text)
    Token.ofSource "\x7b x \x7d" = before ++ [⟨Value.closeWord, 1, 5⟩] ∧
    .block [.operator "x"] ∈ (m.step Value.closeWord).2.state.stack ∧
    Value.ReadBack [.operator "x"] := by
  intro before m
  have ht : Token.ofSource "\x7b x \x7d" = before ++ [⟨Value.closeWord, 1, 5⟩] := by decide
  have hb : .block [.operator "x"] ∈ (m.step Value.closeWord).2.state.stack := by
    have hw : Lexeme.ofWord "x" = .value (.operator "x") := rfl
    have hm : (m.step Value.closeWord).2.state.stack = _ := captured_word hw
    simp [hm]
  exact ⟨ht, hb, (captured_blocks_read_back {} _ before _ [] ht).2.2 _ hb⟩

end Machine

-- A literal that is too large for a double.
theorem Number.read?_overflow : Number.read? "1e999" = some (ofCode false infinityCode) := by
  have hd : Decimal.read? "1e999".toList = some ⟨false, 1, 999⟩ := by decide
  have hc : (⟨false, 1, 999⟩ : Decimal).code = infinityCode := by simp [Decimal.code]
  rw [Number.read?, hd, Option.map_some, Decimal.toFloat, hc]

theorem Value.readBlock_infinity (h : Number.code x = Number.infinityCode)
    (hn : Number.isNegative x = false) :
    readBlock (block [number x]).text = .ok [operator "inf"] := by
  have hw : ∀ v ∈ [number x], v.Written fun _ => True := by
    simpa using Written.number trivial
  have hf : ¬x.isFinite := by
    rw [Number.isFinite_iff, h]
    exact Nat.lt_irrefl _
  have ht : Number.text x = "inf" := by simp [Number.text, h, hn]
  rw [readBlock_text hw, shownAll, shown, if_neg hf, ht, shownAll]

theorem Machine.infinite_literal_not_read_back :
    let before := [⟨Value.openWord, 1, 1⟩, ⟨"1e999", 1, 3⟩]
    let m := ({ limits := {} } : Machine).after (before.map fun token : Token => .step token.text)
    Token.ofSource "\x7b 1e999 \x7d" = before ++ [⟨Value.closeWord, 1, 9⟩] ∧
    ∃ body, .block body ∈ (m.step Value.closeWord).2.state.stack ∧
      Value.readBlock (Value.block body).text = .ok [.operator "inf"] ∧
      ¬∃ values, Value.readBlock (Value.block body).text = .ok values ∧ Value.allSame values body := by
  intro before m
  have ht : Token.ofSource "\x7b 1e999 \x7d" = before ++ [⟨Value.closeWord, 1, 9⟩] := by decide
  have hm : (m.step Value.closeWord).2.state.stack = _ :=
    captured_word (Lexeme.ofWord_number Number.read?_overflow)
  have hr := Value.readBlock_infinity (Number.code_ofCode false (Nat.le_refl _))
    (Number.isNegative_ofCode false (Nat.le_refl _))
  refine ⟨ht, _, by simp [hm], hr, fun ⟨values, hv, hs⟩ => ?_⟩
  rw [hr] at hv
  cases hv
  cases hs

end StackScript
