import StackScript.Proofs.Nesting

namespace StackScript

namespace Token

def linesOf (source : String) : List String :=
  (source.toList.splitOn '\n').map String.ofList

-- How the tokens of a line stand in it. A carriage return at the end is in none of them.
structure LaidOut (line : String) (tokens : List Token) : Prop where
  first  : tokens.head?.map (·.column) = some 1
  next   : tokens.IsChain fun token₁ token₂ =>
           token₂.column = token₁.column + token₁.text.utf8ByteSize + 1
  joined : " ".intercalate (tokens.map (·.text)) ++
           (if line.toList.getLast? = some '\r' then "\r" else "") = line
  bytes  : ∀ token ∈ tokens,
           line.toUTF8.extract (token.column - 1) (token.column - 1 + token.text.utf8ByteSize) =
             token.text.toUTF8

section Splitting

variable {sep c : Char}

theorem length_splitOn (sep : Char) (xs : List Char) :
    (xs.splitOn sep).length = xs.count sep + 1 := by
  induction xs
  case nil => rfl
  case cons x xs hi =>
    rw [List.splitOn_cons_eq_if_modifyHead, List.count_cons]
    split <;> simp [hi]

theorem sum_count_splitOn (hc : c ≠ sep) (xs : List Char) :
    ((xs.splitOn sep).map (·.count c)).sum = xs.count c := by
  induction xs
  case nil => rfl
  case cons x xs hi =>
    rw [List.splitOn_cons_eq_if_modifyHead, List.count_cons]
    split
    case isTrue hx =>
      have hn : (x == c) = false := by simpa [eq_of_beq hx] using hc.symm
      simpa [hn] using hi
    case isFalse =>
      have ⟨first, rest, hs⟩ := List.exists_cons_of_ne_nil (List.splitOn_ne_nil sep xs)
      rw [hs] at hi ⊢
      rw [List.modifyHead_cons, List.map_cons, List.sum_cons, List.count_cons, ← hi, List.map_cons,
        List.sum_cons]
      omega

end Splitting

theorem dropReturn_append (line : List Char) :
    dropReturn line ++ (if line.getLast? = some '\r' then ['\r'] else []) = line := by
  unfold dropReturn
  split
  case isTrue h  => exact List.dropLast_append_getLast? '\r' h
  case isFalse h => exact List.append_nil line

theorem count_dropReturn (hc : c ≠ '\r') (line : List Char) :
    (dropReturn line).count c = line.count c := by
  conv => rhs; rw [← dropReturn_append line, List.count_append]
  split <;> simp [hc.symm]

section Line

variable {line column number : Nat} {words : List (List Char)}

theorem length_ofLine (line : List Char) (number : Nat) :
    (ofLine line number).length = line.count ' ' + 1 := by
  have h := congrArg List.length (map_text_place number 1 ((dropReturn line).splitOn ' '))
  rw [List.length_map, List.length_map, length_splitOn, count_dropReturn (by decide)] at h
  exact h

theorem place_isChain (line column : Nat) (words : List (List Char)) :
    (place line column words).IsChain fun token₁ token₂ =>
      token₂.column = token₁.column + token₁.text.utf8ByteSize + 1 := by
  induction words generalizing column
  case nil => exact .nil
  case cons word words hi =>
    refine List.isChain_cons.mpr ⟨fun token ht => ?_, hi _⟩
    cases words
    case nil  => cases ht
    case cons => cases ht; rfl

-- What stands before a token in its line is as long as its column tells.
theorem exists_of_mem_place (h : token ∈ place line column words) :
    ∃ before after, " ".intercalate (words.map String.ofList) = before ++ token.text ++ after ∧
      token.column = column + before.utf8ByteSize := by
  induction words generalizing column
  case nil => cases h
  case cons word words hi =>
    cases List.mem_cons.mp h
    case inl h =>
      subst h
      by_cases hw : words = []
      case pos => exact ⟨"", "", by simp [hw], rfl⟩
      case neg =>
        refine ⟨"", " " ++ " ".intercalate (words.map String.ofList), ?_, rfl⟩
        rw [List.map_cons, String.intercalate_cons_of_ne_nil (by simpa using hw)]
        simp [String.append_assoc]
    case inr h =>
      obtain ⟨before, after, hj, hc⟩ := hi h
      have hw : words ≠ [] := by
        rintro rfl
        cases h
      refine ⟨String.ofList word ++ " " ++ before, after, ?_, ?_⟩
      · rw [List.map_cons, String.intercalate_cons_of_ne_nil (by simpa using hw), hj]
        simp only [String.append_assoc]
      · have hs : " ".utf8ByteSize = 1 := rfl
        rw [hc, String.utf8ByteSize_append, String.utf8ByteSize_append, hs]
        omega

theorem extract_between (before text after : String) :
    (before ++ text ++ after).toUTF8.extract before.utf8ByteSize
      (before.utf8ByteSize + text.utf8ByteSize) = text.toUTF8 := by
  have hs : before.utf8ByteSize + text.utf8ByteSize = (before ++ text).toByteArray.size := by
    rw [← String.utf8ByteSize_append]
    rfl
  show (before ++ text ++ after).toByteArray.extract _ _ = text.toByteArray
  rw [String.toByteArray_append, hs, ByteArray.extract_append_size_left, String.toByteArray_append]
  exact ByteArray.extract_append_eq_right rfl (by simp)

theorem joined_ofLine (line : List Char) (number : Nat) :
    " ".intercalate ((ofLine line number).map (·.text)) = String.ofList (dropReturn line) := by
  have hm : (((dropReturn line).splitOn ' ').map String.ofList).map String.toList =
      (dropReturn line).splitOn ' ' := by simp
  rw [ofLine, map_text_place, ← String.toList_inj, String.toList_intercalate, hm]
  exact (List.intercalate_splitOn ' ').trans String.toList_ofList.symm

theorem ofLine_laidOut (line : List Char) (number : Nat) :
    LaidOut (String.ofList line) (ofLine line number) := by
  have hj : " ".intercalate ((ofLine line number).map (·.text)) ++
      (if line.getLast? = some '\r' then "\r" else "") = String.ofList line := by
    rw [joined_ofLine, ← String.toList_inj, String.toList_append, String.toList_ofList,
      String.toList_ofList]
    conv => rhs; rw [← dropReturn_append line]
    split <;> rfl
  refine ⟨?_, place_isChain _ _ _, by rw [String.toList_ofList]; exact hj, fun token ht => ?_⟩
  · have ⟨word, words, hs⟩ := List.exists_cons_of_ne_nil (List.splitOn_ne_nil ' ' (dropReturn line))
    rw [ofLine, hs]
    rfl
  · obtain ⟨before, after, hb, hc⟩ := exists_of_mem_place ht
    rw [ofLine, map_text_place, hb, String.append_assoc] at hj
    rw [← hj, hc, Nat.add_sub_cancel_left]
    exact extract_between before token.text _

end Line

section Lines

variable {line : List Char} {lines : List (List Char)} {start k : Nat}

-- The tokens of lines that are numbered from `start` on.
def ofLines (start : Nat) (lines : List (List Char)) : List Token :=
  (lines.zipIdx start).flatMap fun (line, number) => ofLine line number

theorem ofSource_eq (source : String) : ofSource source = ofLines 1 (source.toList.splitOn '\n') :=
  rfl

theorem ofLines_cons (start : Nat) (line : List Char) (lines : List (List Char)) :
    ofLines start (line :: lines) = ofLine line start ++ ofLines (start + 1) lines := by
  simp [ofLines]

theorem mem_ofLines (h : token ∈ ofLines start lines) :
    start ≤ token.line ∧ token.line < start + lines.length := by
  obtain ⟨⟨line, number⟩, hl, ht⟩ := List.mem_flatMap.mp h
  rw [(mem_place ht).1]
  exact ⟨(List.mem_zipIdx hl).1, (List.mem_zipIdx hl).2.1⟩

theorem length_ofLines (start : Nat) (lines : List (List Char)) :
    (ofLines start lines).length = (lines.map (·.count ' ')).sum + lines.length := by
  induction lines generalizing start
  case nil => rfl
  case cons line lines hi =>
    rw [ofLines_cons, List.length_append, length_ofLine, hi, List.map_cons, List.sum_cons,
      List.length_cons]
    omega

-- Of all tokens those with the number of a line are the tokens of that line.
theorem filter_line_ofLines (start : Nat) (h : lines[k]? = some line) :
    (ofLines start lines).filter (·.line = start + k) = ofLine line (start + k) := by
  induction lines generalizing start k
  case nil => simp at h
  case cons first lines hi =>
    rw [ofLines_cons, List.filter_append]
    cases k
    case zero =>
      cases h
      have hfirst : (ofLine line start).filter (·.line = start) = ofLine line start :=
        List.filter_eq_self.mpr fun token ht => by simpa using (mem_place ht).1
      have hrest : (ofLines (start + 1) lines).filter (·.line = start) = [] := by
        refine List.filter_eq_nil_iff.mpr fun token ht => ?_
        have := (mem_ofLines ht).1
        simp only [decide_eq_true_eq]
        omega
      rw [Nat.add_zero, hfirst, hrest, List.append_nil]
    case succ k =>
      have hfirst : (ofLine first start).filter (·.line = start + (k + 1)) = [] := by
        refine List.filter_eq_nil_iff.mpr fun token ht => ?_
        have := (mem_place ht).1
        simp only [decide_eq_true_eq]
        omega
      rw [hfirst, List.nil_append, show start + (k + 1) = start + 1 + k by omega]
      exact hi (start + 1) h

theorem linesOf_eq (source : String) :
    (linesOf source).map String.toList = source.toList.splitOn '\n' := by
  simp [linesOf]

theorem intercalate_linesOf (source : String) : "\n".intercalate (linesOf source) = source := by
  rw [← String.toList_inj, String.toList_intercalate, linesOf_eq]
  exact List.intercalate_splitOn '\n'

theorem length_linesOf (source : String) :
    (linesOf source).length = 1 + source.toList.count '\n' := by
  rw [linesOf, List.length_map, length_splitOn, Nat.add_comm]

theorem length_ofSource (source : String) :
    (ofSource source).length = 1 + source.toList.count ' ' + source.toList.count '\n' := by
  rw [ofSource_eq, length_ofLines, sum_count_splitOn (by decide), length_splitOn]
  omega

-- Each line has its tokens, and they are laid out in it.
theorem laidOut_ofSource {line : String} (h : (linesOf source)[k]? = some line) :
    LaidOut line ((ofSource source).filter (·.line = k + 1)) := by
  rw [linesOf, List.getElem?_map] at h
  obtain ⟨chars, hc, rfl⟩ := Option.map_eq_some_iff.mp h
  rw [ofSource_eq, Nat.add_comm k 1, filter_line_ofLines 1 hc, Nat.add_comm 1 k]
  exact ofLine_laidOut chars (k + 1)

end Lines
end Token

theorem Session.result_of_mem_items {events : List Event} {result : Except RunError Unit}
    (h : .error e ∈ events.map .ok ++ ending result) : result = .error e := by
  cases result <;> simp [ending] at h
  rw [h]

theorem run_error_of_session (h : .error e ∈ (Session.ofSource limits source).drain.1) :
    run limits source = .error e := by
  rw [(drain_ofSource limits source).1] at h
  refine (run_eq_start_outcome (.events limits) source).trans (Run.outcome_eq_error.mpr ?_)
  exact Session.result_of_mem_items h

namespace Value

theorem readBlock_unmatched (h : readBlock source = .error (.unmatchedClose line column)) :
    readAll source = .error (.unmatchedClose line column) := by
  unfold readBlock at h
  cases hr : readAll source <;> simp only [hr, Bind.bind, Except.bind] at h
  case error => exact h
  case ok    => split at h <;> cases h

-- The place of a brace that ends no block is that of the first token which ends none.
theorem unmatched_place (h : readAll source = .error (.unmatchedClose line column)) :
    ∃ before token after, Token.ofSource source = before ++ token :: after ∧
      (∃ d, before.foldlM Draft.read {} = .ok d ∧ d.blocks = #[]) ∧
      token.text = closeWord ∧ token.line = line ∧ token.column = column := by
  have hd := readTokens_of_unmatched h
  obtain ⟨before, token, after, d, ht, hok, herr⟩ := Draft.readTokens_error hd
  obtain ⟨he, hw, hb⟩ := Draft.read_error herr
  have hs := Lexeme.ofWord_spelling token.text
  rw [hw] at hs
  cases he
  exact ⟨before, token, after, ht, ⟨d, hok, hb⟩, hs, rfl, rfl⟩

end Value

theorem tokens_placed_exactly (limits : Limits) (source : String) :
    let tokens := Token.ofSource source
    let lines  := Token.linesOf source
    tokens.length = 1 + source.toList.count ' ' + source.toList.count '\n' ∧
    (∀ token ∈ tokens, ' ' ∉ token.text.toList ∧ '\n' ∉ token.text.toList) ∧
    ("\n".intercalate lines = source ∧ (∀ line ∈ lines, '\n' ∉ line.toList) ∧
      lines.length = 1 + source.toList.count '\n') ∧
    (∀ token ∈ tokens, 1 ≤ token.line ∧ token.line ≤ 1 + source.toList.count '\n') ∧
    (∀ k line, lines[k]? = some line →
      Token.LaidOut line (tokens.filter (·.line = k + 1))) ∧
    tokens.Pairwise Token.Before ∧
    (∀ e,
      run limits source = .error e ∨ runWithEvents limits source = .error e ∨
        .error e ∈ (Session.ofSource limits source).drain.1 →
      ∃ before after, tokens = before ++ e.token :: after ∧
        let earlier := Program.steps before (.silent limits) .initial
        earlier.result = .ok () ∧
        (Op.step e.token.text (.silent limits) earlier.state).result = .error e.fault) ∧
    (∀ line column,
      Value.readAll source = .error (.unmatchedClose line column) ∨
        Value.readBlock source = .error (.unmatchedClose line column) →
      ∃ before token after, tokens = before ++ token :: after ∧
        (∃ d, before.foldlM Draft.read {} = .ok d ∧ d.blocks = #[]) ∧
        token.text = Value.closeWord ∧ token.line = line ∧ token.column = column) := by
  intro tokens lines
  refine ⟨Token.length_ofSource source, fun _ => Token.unbroken_of_mem_ofSource,
    ⟨Token.intercalate_linesOf source, fun line hl => ?_, Token.length_linesOf source⟩,
    fun token ht => ?_, fun k line => Token.laidOut_ofSource, Token.ofSource_pairwise source,
    fun e he => run_error_place ?_, fun line column he => Value.unmatched_place ?_⟩
  · obtain ⟨chars, hc, rfl⟩ := List.mem_map.mp hl
    rw [String.toList_ofList]
    exact (Token.mem_of_mem_splitOn hc).1
  · have ht : token ∈ Token.ofLines 1 (source.toList.splitOn '\n') := ht
    have hm := Token.mem_ofLines ht
    rw [Token.length_splitOn] at hm
    omega
  · rcases he with he | he | he
    · exact he
    · rw [run_eq_runWithEvents, he]
      rfl
    · exact run_error_of_session he
  · exact he.elim id Value.readBlock_unmatched

-- A carriage return, an empty word and a character of two bytes stand before the failing brace.
theorem brace_found_in_line :
    let source := "/a \x7b\r\né  \x7d \x7d"
    let first  : List Token := [⟨"/a", 1, 1⟩, ⟨"\x7b", 1, 4⟩]
    let second : List Token := [⟨"é", 2, 1⟩, ⟨"", 2, 4⟩, ⟨"\x7d", 2, 5⟩, ⟨"\x7d", 2, 7⟩]
    let e      : RunError := ⟨⟨"\x7d", 2, 7⟩, 3, .blockUnderflow⟩
    (Token.ofSource source = first ++ second ∧
      Token.LaidOut "/a \x7b\r" first ∧ Token.LaidOut "é  \x7d \x7d" second) ∧
    run {} source = .error e ∧
      ∃ before after, Token.ofSource source = before ++ e.token :: after ∧
        (Program.steps before (.silent {}) .initial).result = .ok () := by
  intro source first second e
  have ht : Token.ofSource source = first ++ second := by decide +kernel
  have hl : Token.linesOf source = ["/a \x7b\r", "é  \x7d \x7d"] := by decide +kernel
  have he : run {} source = .error e := by
    rw [run, start, Program.run, ht]
    rfl
  obtain ⟨_, _, _, _, hlines, _, herror, _⟩ := tokens_placed_exactly {} source
  obtain ⟨before, after, hparts, hbefore, _⟩ := herror e (.inl he)
  rw [ht, hl] at hlines
  exact ⟨⟨ht, hlines 0 _ rfl, hlines 1 _ rfl⟩, he, before, after, hparts, hbefore⟩

end StackScript
