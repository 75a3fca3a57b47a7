import StackScript.Proofs.Course
import StackScript.Proofs.Reading

namespace StackScript

namespace Token

-- The one stands before the other in the source.
def Before (token₁ token₂ : Token) : Prop :=
  token₁.line < token₂.line ∨ token₁.line = token₂.line ∧ token₁.column < token₂.column

theorem mem_place {line column : Nat} {words : List (List Char)}
    (h : token ∈ place line column words) :
    token.line = line ∧ column ≤ token.column := by
  induction words generalizing column
  case nil => cases h
  case cons word words hi =>
    cases List.mem_cons.mp h
    case inl h => simp [h]
    case inr h =>
      have ⟨hl, hc⟩ := hi h
      exact ⟨hl, by omega⟩

theorem place_pairwise (line column : Nat) (words : List (List Char)) :
    (place line column words).Pairwise Before := by
  induction words generalizing column
  case nil => exact .nil
  case cons word words hi =>
    refine .cons (fun token h => .inr ?_) (hi _)
    have ⟨hl, hc⟩ := mem_place h
    exact ⟨hl.symm, by simp only; omega⟩

theorem ofSource_pairwise (source : String) : (ofSource source).Pairwise Before := by
  have hlines : ((source.toList.splitOn '\n').zipIdx 1).Pairwise (·.2 < ·.2) := by
    rw [← List.pairwise_map (f := Prod.snd), List.zipIdx_map_snd]
    exact List.pairwise_lt_range'
  refine List.pairwise_flatMap.mpr ⟨fun _ _ => place_pairwise _ _ _, hlines.imp ?_⟩
  intro line₁ line₂ hlt token₁ h₁ token₂ h₂
  have hl₁ := (mem_place h₁).1
  have hl₂ := (mem_place h₂).1
  exact .inl (by omega)

end Token

namespace Contract

variable {κ : Type} {w : Watch κ}

-- Evaluation closes no block literals, so it does not find one missing.
def closesNone (w : Watch κ) : Contract κ where
  watch    := w
  pre _    := True
  post _ r := r.result ≠ .error .blockUnderflow

theorem closesNone_of {a : Op κ α} (h : ∀ s, (a w s).result ≠ .error .blockUnderflow) :
    (closesNone w).Holds a :=
  fun s _ => h s

theorem closesNone_bind {a : Op κ α} {f : α → Op κ β} (ha : (closesNone w).Holds a)
    (hf : ∀ x, (closesNone w).Holds (f x)) : (closesNone w).Holds (a >>= f) := by
  refine closesNone_of fun s => ?_
  have ha := ha s trivial
  simp only [closesNone] at ha
  rcases hr : a w s with ⟨e | x, t, trace⟩
  case error =>
    rw [hr] at ha
    rw [Act.bind_error hr]
    simpa using ha
  case ok =>
    rw [Act.bind_ok hr]
    exact hf x t trivial

theorem closesNone_fail {e : Fault} (h : e.ofEvaluation) :
    (closesNone w).Holds (α := α) (Act.fail e) := by
  refine closesNone_of fun s => ?_
  rintro ⟨⟩
  cases h

theorem closesNone_stable : (closesNone w).Stable where
  pure _            := closesNone_of fun _ => nofun
  bind              := closesNone_bind
  fail              := closesNone_fail
  say _             := closesNone_of fun _ => nofun
  startEvaluation _ := closesNone_of fun _ => by rw [Op.startEvaluation_run]; split <;> nofun
  push _            := closesNone_of fun _ => by rw [Op.push_run]; split <;> nofun
  pop               := closesNone_of fun _ => by rw [Op.pop_run]; split <;> nofun
  capture _ _ _ _   := nofun
  bindName _ _      := closesNone_of fun _ => by rw [Op.bindName_run]; split <;> nofun
  put               := closesNone_of fun _ => by rw [Op.put_run]; split <;> nofun

theorem closesNone_closed : (closesNone w).Closed :=
  closesNone_stable.closed (closesNone_of fun _ => by rw [Op.enter_run]; split <;> nofun)
    (closesNone_of fun _ => nofun) (closesNone_of fun _ => nofun) (closesNone_of fun _ => nofun)

end Contract

theorem Draft.size_add (d : Draft) (v : Value) : (d.add v).blocks.size = d.blocks.size := by
  unfold add
  split <;> simp

-- Where reading fails, it has passed all tokens before the one that it fails at.
theorem Draft.readTokens_error {tokens : List Token} {d : Draft}
    (h : tokens.foldlM read d = .error e) :
    ∃ before token after d', tokens = before ++ token :: after ∧ before.foldlM read d = .ok d' ∧
      d'.read token = .error e := by
  induction tokens generalizing d
  case nil => cases h
  case cons token tokens hi =>
    rw [List.foldlM_cons] at h
    cases hd : d.read token <;> rw [hd] at h
    case error =>
      cases h
      exact ⟨[], token, tokens, d, rfl, rfl, hd⟩
    case ok =>
      obtain ⟨before, token', after, d', rfl, hok, herr⟩ := hi h
      exact ⟨token :: before, token', after, d', rfl, by rw [List.foldlM_cons, hd]; exact hok, herr⟩

-- Only the end of a block that is not open cannot be read.
theorem Draft.read_error {d : Draft} {token : Token} (h : d.read token = .error e) :
    e = .unmatchedClose token.line token.column ∧ Lexeme.ofWord token.text = .closing ∧
      d.blocks = #[] := by
  unfold read at h
  cases hw : Lexeme.ofWord token.text <;> simp only [hw] at h
  case closing =>
    cases hb : d.blocks.back? <;> rw [hb] at h <;> cases h
    exact ⟨rfl, rfl, by simpa using hb⟩
  all_goals cases h

-- The reader fails at a token that it was given.
theorem Draft.exists_of_readTokens_error {tokens : List Token} {d : Draft}
    (h : tokens.foldlM read d = .error err) :
    ∃ token ∈ tokens, err = .unmatchedClose token.line token.column := by
  obtain ⟨before, token, after, d', rfl, _, herr⟩ := readTokens_error h
  exact ⟨token, by simp, (read_error herr).1⟩

namespace Op

variable {κ : Type} {w : Watch κ} {s : State} {d : Draft}

theorem eval_ne_blockUnderflow (v : Value) : (eval v w s).result ≠ .error .blockUnderflow :=
  Contract.closesNone_closed.eval v s trivial

-- One case per meaning of a word: where the machine gets on, so does the reader, and where the
-- machine finds no open block, the reader finds none.
theorem step_reads (h : d.blocks.size = s.blocks.size) (token : Token) :
    let r := step token.text w s
    (r.result = .ok () → ∃ d', d.read token = .ok d' ∧ d'.blocks.size = r.state.blocks.size) ∧
    (r.result = .error .blockUnderflow →
      d.read token = .error (.unmatchedClose token.line token.column)) := by
  have hsay : Act.say (ε := Fault) (.stepping token.text) w s =
    ⟨.ok (), s, w.keep (.said (.stepping token.text)) s⟩ := by simp [Act.say, Act.note, Act.change]
  rw [step, Act.bind_ok hsay]
  unfold Draft.read
  cases hl : Lexeme.ofWord token.text
  case blank =>
    refine ⟨fun _ => ⟨d, rfl, h⟩, fun he => ?_⟩
    cases he
  case opening =>
    refine ⟨fun _ => ⟨_, rfl, by simp [openBlock, Act.change, h]⟩, fun he => ?_⟩
    cases he
  case value v =>
    refine ⟨fun _ => ⟨_, rfl, ?_⟩, fun he => absurd he (eval_ne_blockUnderflow v)⟩
    rw [d.size_add, h]
    exact (eval_blocks_size v).symm
  case closing =>
    have hr := closeBlock_run (w := w) (s := s)
    dsimp only
    cases hb : s.blocks.back? <;> simp only [hb] at hr
    case none =>
      have hd : d.blocks = #[] := by
        have hs : s.blocks = #[] := by simpa using hb
        exact Array.eq_empty_of_size_eq_zero (by rw [h, hs]; rfl)
      rw [Act.bind_error hr, hd]
      refine ⟨fun hok => ?_, fun _ => rfl⟩
      cases hok
    case some body =>
      obtain ⟨older, ho⟩ := Array.back?_eq_some_iff.mp hb
      have hpos : 0 < d.blocks.size := by simp [h, ho]
      obtain ⟨older', body', hd⟩ := Array.exists_push_of_size_pos hpos
      rw [Act.bind_ok hr, hd, Array.back?_push]
      refine ⟨fun _ => ⟨_, rfl, ?_⟩, fun he => absurd he (eval_ne_blockUnderflow _)⟩
      rw [Draft.size_add, eval_blocks_size]
      simpa [hd, ho] using h

end Op

namespace Program

variable {κ : Type} {w : Watch κ} {s : State}

-- The run lemma: as long as no token fails, the machine and the reader have the same number of
-- blocks open.
theorem steps_read {tokens : List Token} (d : Draft) (h : d.blocks.size = s.blocks.size)
    (hok : (steps tokens w s).result = .ok ()) :
    ∃ d', tokens.foldlM Draft.read d = .ok d' ∧
      d'.blocks.size = (steps tokens w s).state.blocks.size := by
  revert hok
  revert d
  refine steps_induction ?nil ?error ?ok tokens s
  case nil   => exact fun s d h _ => ⟨d, rfl, h⟩
  case error => intros; contradiction
  case ok =>
    intro token rest s t trace r hr hi d h hok
    have hs := (Op.step_reads (w := w) h token).1
    rw [stepToken_ok hr] at hs
    have ⟨d₁, hd₁, hsize⟩ := hs rfl
    have ⟨d₂, hd₂, hsize⟩ := hi d₁ hsize hok
    exact ⟨d₂, by rw [List.foldlM_cons, hd₁]; exact hd₂, hsize⟩

end Program

namespace Value

variable {source : String}

theorem readAll_of_draft (h : (Token.ofSource source).foldlM Draft.read {} = .ok d) :
    readAll source = d.finish := by
  rw [readAll, h]
  rfl

theorem readAll_of_error (h : (Token.ofSource source).foldlM Draft.read {} = .error e) :
    readAll source = .error e := by
  rw [readAll, h]
  rfl

theorem readTokens_of_unmatched (h : readAll source = .error (.unmatchedClose line column)) :
    (Token.ofSource source).foldlM Draft.read {} = .error (.unmatchedClose line column) := by
  cases hd : (Token.ofSource source).foldlM Draft.read {}
  case error =>
    rw [readAll_of_error hd] at h
    cases h
    rfl
  case ok =>
    rw [readAll_of_draft hd, Draft.finish] at h
    split at h <;> cases h

end Value

section Judged

variable {limits : Limits} {source : String}

theorem exists_of_run_ok (h : run limits source = .ok outcome) :
    ∃ d, (Token.ofSource source).foldlM Draft.read {} = .ok d ∧
      d.blocks.size = outcome.openBlocks := by
  obtain ⟨hok, rfl⟩ := Run.outcome_eq_ok.mp h
  have ⟨hresult, hstate⟩ := Program.run_comes_to (w := .silent limits) (s := .initial) source
  rw [start] at hok ⊢
  rw [hstate]
  exact Program.steps_read {} rfl (hresult ▸ hok)

-- Where a run fails, the reader has got to the same token.
theorem exists_of_run_error (h : run limits source = .error e) :
    ∃ before after d, Token.ofSource source = before ++ e.token :: after ∧
      before.foldlM Draft.read {} = .ok d ∧
      (e.fault = .blockUnderflow →
        d.read e.token = .error (.unmatchedClose e.token.line e.token.column)) := by
  obtain ⟨before, after, ht, hok, hstep⟩ := run_error_place h
  obtain ⟨d, hd, hsize⟩ := Program.steps_read {} rfl hok
  refine ⟨before, after, d, ht, hd, fun hf => ?_⟩
  exact (Op.step_reads hsize e.token).2 (by rw [hstep, hf])

end Judged

theorem braces_judged_alike (limits : Limits) (source : String) :
    (∀ e, run limits source = .error e → e.fault = .blockUnderflow →
      Value.readAll source = .error (.unmatchedClose e.token.line e.token.column)) ∧
    (∀ line column, Value.readAll source = .error (.unmatchedClose line column) →
      ∃ e, run limits source = .error e ∧
        (e.token.line < line ∨ e.token.line = line ∧ e.token.column ≤ column)) ∧
    (∀ outcome, run limits source = .ok outcome → 0 < outcome.openBlocks →
      Value.readAll source = .error (.unclosed outcome.openBlocks)) ∧
    (∀ outcome, run limits source = .ok outcome → outcome.openBlocks = 0 →
      ∃ values, Value.readAll source = .ok values) := by
  refine ⟨fun e he hf => ?_, fun line column hr => ?_, fun outcome ho hn => ?_,
    fun outcome ho hn => ?_⟩
  · obtain ⟨before, after, d, ht, hd, hclose⟩ := exists_of_run_error he
    refine Value.readAll_of_error ?_
    rw [ht, List.foldlM_append, hd]
    show List.foldlM Draft.read d (e.token :: after) = _
    rw [List.foldlM_cons, hclose hf]
    rfl
  · have hr := Value.readTokens_of_unmatched hr
    cases he : run limits source
    case ok =>
      obtain ⟨d, hd, _⟩ := exists_of_run_ok he
      rw [hd] at hr
      cases hr
    case error e =>
      obtain ⟨before, after, d, ht, hd, _⟩ := exists_of_run_error he
      refine ⟨e, rfl, ?_⟩
      -- The reader has passed the tokens before the one that fails, so it stops there or later.
      have hp := ht ▸ Token.ofSource_pairwise source
      rw [ht, List.foldlM_append, hd] at hr
      obtain ⟨token, hm, hc⟩ := Draft.exists_of_readTokens_error hr
      cases hc
      cases List.mem_cons.mp hm
      case inl h => exact .inr (by simp [h])
      case inr h =>
        have hb := (List.pairwise_cons.mp (List.pairwise_append.mp hp).2.1).1 token h
        exact hb.imp_right fun ⟨hl, hc⟩ => ⟨hl, Nat.le_of_lt hc⟩
  · obtain ⟨d, hd, hsize⟩ := exists_of_run_ok ho
    have hne : d.blocks ≠ #[] := by
      intro he
      simp [he] at hsize
      omega
    simp [Value.readAll_of_draft hd, Draft.finish, hne, hsize]
  · obtain ⟨d, hd, hsize⟩ := exists_of_run_ok ho
    have he : d.blocks = #[] := Array.eq_empty_of_size_eq_zero (hsize.trans hn)
    exact ⟨d.values.toList, by simp [Value.readAll_of_draft hd, Draft.finish, he]⟩

-- Texts with a brace too many, with one that the machine does not get to, and with two left open.
theorem misplaced_braces_judged :
    (∃ e, run {} "\x7b \x7d \x7d" = .error e ∧ e.fault = .blockUnderflow ∧
      Value.readAll "\x7b \x7d \x7d" = .error (.unmatchedClose 1 5)) ∧
    (Value.readAll "a\n\x7d" = .error (.unmatchedClose 2 1) ∧
      ∃ e, run {} "a\n\x7d" = .error e ∧
        (e.token.line < 2 ∨ e.token.line = 2 ∧ e.token.column ≤ 1)) ∧
    ∃ outcome, run {} "\x7b a \x7b" = .ok outcome ∧ outcome.openBlocks = 2 ∧
      Value.readAll "\x7b a \x7b" = .error (.unclosed 2) := by
  have h₁ : run {} "\x7b \x7d \x7d" = .error ⟨⟨"\x7d", 1, 5⟩, 1, .blockUnderflow⟩ := by rfl
  have h₂ : Value.readAll "a\n\x7d" = .error (.unmatchedClose 2 1) := by rfl
  have h₃ : run {} "\x7b a \x7b" = .ok ⟨[], 1, 2⟩ := by rfl
  exact ⟨⟨_, h₁, rfl, (braces_judged_alike {} _).1 _ h₁ rfl⟩,
    ⟨h₂, (braces_judged_alike {} _).2.1 2 1 h₂⟩,
    _, h₃, rfl, (braces_judged_alike {} _).2.2.1 _ h₃ (by decide)⟩

end StackScript
