import StackScript.Proofs.Braces
import StackScript.Proofs.RoundTrip

namespace StackScript

namespace Lexeme

def isOpening : Lexeme → Bool
  | opening => true
  | _       => false

def isClosing : Lexeme → Bool
  | closing => true
  | _       => false

-- No block ends before it has begun.
def Nested (kinds : List Lexeme) : Prop :=
  ∀ before, before <+: kinds → before.countP isClosing ≤ before.countP isOpening

end Lexeme

namespace Value

mutual

-- The meanings of the words that a value is made of.
def lexemes : Value → List Lexeme
  | block body => .opening :: (lexemesOfAll body ++ [.closing])
  | v          => [.value v]

def lexemesOfAll : List Value → List Lexeme
  | []      => []
  | v :: vs => lexemes v ++ lexemesOfAll vs

end

@[simp]
theorem lexemesOfAll_append (vs ws : List Value) :
    lexemesOfAll (vs ++ ws) = lexemesOfAll vs ++ lexemesOfAll ws := by
  induction vs
  case nil          => rfl
  case cons v vs hi => simp [lexemesOfAll, hi]

end Value

-- Only one word begins a block, only one ends it, and no word is a block of its own.
theorem Lexeme.ofWord_spelling (word : String) :
    match ofWord word with
    | .blank   => word = ""
    | .opening => word = Value.openWord
    | .closing => word = Value.closeWord
    | .value v => v.lexemes = [.value v] := by
  generalize hk : ofWord word = kind
  unfold ofWord at hk
  split_ifs at hk
  case pos h => cases hk; exact h
  case pos h => cases hk; exact h
  case pos h => cases hk; exact h
  case pos h => cases hk; rfl
  case neg   => split at hk <;> cases hk <;> rfl

namespace Token

-- The words of a text without the empty ones between neighbouring spaces.
def wordsOf (text : String) : List Token :=
  (ofSource text).filter (·.text ≠ "")

-- What the words of a text mean.
def kinds (tokens : List Token) : List Lexeme :=
  tokens.map (Lexeme.ofWord ·.text)

theorem kinds_snoc (tokens : List Token) (token : Token) :
    kinds (tokens ++ [token]) = kinds tokens ++ [Lexeme.ofWord token.text] := by
  simp [kinds]

end Token

-- Words with the meanings of a sequence of values are read as this sequence. The induction is on
-- the values, and on the sequences that their blocks hold.
mutual

theorem Reads.of_lexemes {words : List String} : (v : Value) →
    words.map Lexeme.ofWord = v.lexemes → Reads words [v]
  | .block body, h => by
    obtain ⟨first, rest, rfl, hfirst, hrest⟩ := List.map_eq_cons_iff.mp h
    obtain ⟨inner, last, rfl, hinner, hl⟩ := List.map_eq_append_iff.mp hrest
    obtain ⟨last, rfl, hlast⟩ := List.map_eq_singleton_iff.mp hl
    have hf := Lexeme.ofWord_spelling first
    have hl := Lexeme.ofWord_spelling last
    simp only [hfirst, hlast] at hf hl
    rw [hf, hl]
    exact .block (.of_lexemesOfAll body hinner)
  | .number _, h | .symbol _, h | .operator _, h | .native _, h => by
    obtain ⟨word, rfl, hw⟩ := List.map_eq_singleton_iff.mp h
    exact .value hw

theorem Reads.of_lexemesOfAll {words : List String} : (vs : List Value) →
    words.map Lexeme.ofWord = Value.lexemesOfAll vs → Reads words vs
  | [], h => by
    rw [List.map_eq_nil_iff.mp h]
    exact .nil
  | v :: vs, h => by
    obtain ⟨words₁, words₂, rfl, h₁, h₂⟩ := List.map_eq_append_iff.mp h
    exact (Reads.of_lexemes v h₁).append (.of_lexemesOfAll vs h₂)

end

namespace Draft

variable {d d' : Draft} {token : Token} {tokens : List Token}

-- The meanings of the words that have led to a draft.
def lexemes (d : Draft) : List Lexeme :=
  Value.lexemesOfAll d.values.toList ++
  d.blocks.toList.flatMap fun body => .opening :: Value.lexemesOfAll body.toList

theorem lexemes_add (d : Draft) (v : Value) : (d.add v).lexemes = d.lexemes ++ v.lexemes := by
  cases hb : d.blocks.back?
  case none =>
    have hb : d.blocks = #[] := by simpa using hb
    simp [add, lexemes, hb, Value.lexemesOfAll]
  case some body =>
    obtain ⟨older, hb⟩ := Array.back?_eq_some_iff.mp hb
    simp [add, lexemes, hb, Value.lexemesOfAll]

-- The step lemma: nothing is lost, and the order is kept.
theorem lexemes_read (h : d.read token = .ok d') (hn : token.text ≠ "") :
    d'.lexemes = d.lexemes ++ [Lexeme.ofWord token.text] := by
  have hs := Lexeme.ofWord_spelling token.text
  unfold read at h
  cases hw : Lexeme.ofWord token.text <;> simp only [hw] at h hs
  case blank => exact absurd hs hn
  case opening =>
    cases h
    simp [lexemes, Value.lexemesOfAll]
  case value v =>
    cases h
    rw [lexemes_add, hs]
  case closing =>
    cases hb : d.blocks.back? <;> rw [hb] at h <;> cases h
    case some body =>
      obtain ⟨older, hb⟩ := Array.back?_eq_some_iff.mp hb
      rw [lexemes_add]
      simp [lexemes, hb, Value.lexemes]

-- The run lemma: what holds of no tokens and is kept by every one that is read holds of them all.
theorem readTokens_invariant {P : List Token → Draft → Prop} (hnil : P [] d)
    (hsnoc : ∀ before token d₁ d₂, P before d₁ → d₁.read token = .ok d₂ → P (before ++ [token]) d₂)
    (h : tokens.foldlM read d = .ok d') : P tokens d' := by
  induction tokens using List.reverseRecOn generalizing d'
  case nil =>
    cases h
    exact hnil
  case append_singleton before token hi =>
    rw [List.foldlM_append] at h
    cases hd : before.foldlM read d <;> rw [hd] at h
    case error => cases h
    case ok d₁ => exact hsnoc before token d₁ d' (hi hd) ((bind_pure _).symm.trans h)

theorem lexemes_readTokens (h : tokens.foldlM read {} = .ok d)
    (hn : ∀ token ∈ tokens, token.text ≠ "") : d.lexemes = Token.kinds tokens := by
  refine readTokens_invariant (P := fun tokens d =>
    (∀ token ∈ tokens, token.text ≠ "") → d.lexemes = Token.kinds tokens) ?_ ?_ h hn
  · exact fun _ => rfl
  · intro before token d₁ d₂ hi hd hn
    simp only [List.forall_mem_append, List.forall_mem_singleton] at hn
    rw [lexemes_read hd hn.2, hi hn.1, Token.kinds_snoc]

theorem size_read (h : d.read token = .ok d') :
    d'.blocks.size + [Lexeme.ofWord token.text].countP Lexeme.isClosing =
      d.blocks.size + [Lexeme.ofWord token.text].countP Lexeme.isOpening := by
  unfold read at h
  cases hw : Lexeme.ofWord token.text <;> simp only [hw] at h
  case blank   => cases h; rfl
  case opening => cases h; simp [Lexeme.isOpening, Lexeme.isClosing]
  case value   => cases h; exact d.size_add _
  case closing =>
    cases hb : d.blocks.back? <;> rw [hb] at h <;> cases h
    case some body =>
      obtain ⟨older, hb⟩ := Array.back?_eq_some_iff.mp hb
      rw [size_add]
      simp [hb, Lexeme.isOpening, Lexeme.isClosing]

theorem size_readTokens (h : tokens.foldlM read {} = .ok d) :
    d.blocks.size + (Token.kinds tokens).countP Lexeme.isClosing =
      (Token.kinds tokens).countP Lexeme.isOpening := by
  refine readTokens_invariant (P := fun tokens d =>
    d.blocks.size + (Token.kinds tokens).countP Lexeme.isClosing =
      (Token.kinds tokens).countP Lexeme.isOpening) rfl ?_ h
  intro before token d₁ d₂ hi hd
  have hsize := size_read hd
  simp only [Token.kinds_snoc, List.countP_append]
  omega

theorem readTokens_snoc (h : before.foldlM read d = .ok d') (token : Token) :
    (before ++ [token]).foldlM read d = d'.read token := by
  rw [List.foldlM_append, h]
  exact bind_pure (d'.read token)

-- Empty words are passed over.
theorem readTokens_filter (d : Draft) (tokens : List Token) :
    (tokens.filter (·.text ≠ "")).foldlM read d = tokens.foldlM read d := by
  induction tokens generalizing d
  case nil => rfl
  case cons token tokens hi =>
    by_cases hn : token.text = ""
    case pos =>
      have hd : d.read token = .ok d := by
        unfold read
        rw [hn]
        rfl
      rw [List.filter_cons_of_neg (by simpa using hn), List.foldlM_cons, hd]
      exact hi d
    case neg =>
      rw [List.filter_cons_of_pos (by simpa using hn), List.foldlM_cons, List.foldlM_cons]
      exact congrArg _ (funext hi)

-- The tokens that can be read are those in which no block ends too early.
theorem nested_iff : Lexeme.Nested (Token.kinds tokens) ↔ ∃ d, tokens.foldlM read {} = .ok d := by
  constructor
  · intro h
    cases hd : tokens.foldlM read {}
    case ok d => exact ⟨d, rfl⟩
    case error =>
      obtain ⟨before, token, after, d, rfl, hok, herr⟩ := readTokens_error hd
      obtain ⟨_, hw, hb⟩ := read_error herr
      have hsize := size_readTokens hok
      have hlast := h (Token.kinds before ++ [.closing])
        ⟨Token.kinds after, by simp [Token.kinds, hw]⟩
      simp [hb, Lexeme.isOpening, Lexeme.isClosing] at hsize hlast
      omega
  · rintro ⟨d, hd⟩ _ hp
    obtain ⟨before, ⟨after, rfl⟩, rfl⟩ := List.prefix_map_iff.mp hp
    rw [List.foldlM_append] at hd
    cases hb : before.foldlM read {} <;> rw [hb] at hd
    case error => cases hd
    case ok d' =>
      have hsize := size_readTokens hb
      rw [Token.kinds] at hsize
      omega

end Draft

-- What comes of reading a text with the words `tokens`.
inductive Reading : List Token → Except ReadError (List Value) → Prop
  | values : Value.lexemesOfAll vs = Token.kinds tokens → Reading tokens (.ok vs)
  | unclosed (pos : 0 < n) (nested : Lexeme.Nested (Token.kinds tokens))
    (more : (Token.kinds tokens).countP Lexeme.isOpening =
      (Token.kinds tokens).countP Lexeme.isClosing + n) :
    Reading tokens (.error (.unclosed n))
  | unmatched (nested : Lexeme.Nested (Token.kinds before))
    (first : ¬Lexeme.Nested (Token.kinds (before ++ [token])))
    (parts : tokens = before ++ token :: after) :
    Reading tokens (.error (.unmatchedClose token.line token.column))

namespace Value

variable {text : String} {tokens : List Token} {vs body : List Value}

def readTokens (tokens : List Token) : Except ReadError (List Value) := do
  let draft ← tokens.foldlM Draft.read {}
  draft.finish

theorem readAll_eq (text : String) : readAll text = readTokens (Token.wordsOf text) := by
  rw [readTokens, Token.wordsOf, Draft.readTokens_filter]
  rfl

theorem readTokens_ok {d : Draft} (h : tokens.foldlM Draft.read {} = .ok d) :
    readTokens tokens = d.finish := by
  rw [readTokens, h]
  rfl

theorem foldlM_of_lexemes (h : lexemesOfAll vs = Token.kinds tokens) :
    tokens.foldlM Draft.read {} = .ok { values := vs.toArray } := by
  have hw : (tokens.map (·.text)).map Lexeme.ofWord = lexemesOfAll vs := by
    rw [h, Token.kinds, List.map_map]
    rfl
  have hr := Reads.of_lexemesOfAll vs hw tokens {} rfl
  rw [hr, Draft.addAll_closed _ _ rfl]
  simp

theorem reading_readTokens (hn : ∀ token ∈ tokens, token.text ≠ "") :
    Reading tokens (readTokens tokens) := by
  cases hd : tokens.foldlM Draft.read {}
  case ok d =>
    have hsize := Draft.size_readTokens hd
    have hlexemes := Draft.lexemes_readTokens hd hn
    rw [readTokens_ok hd, Draft.finish]
    split
    case isTrue hb =>
      have hb : d.blocks = #[] := by simpa using hb
      exact .values (by simpa [Draft.lexemes, hb, lexemesOfAll] using hlexemes)
    case isFalse hb =>
      have hpos : 0 < d.blocks.size := Nat.pos_of_ne_zero (by simpa using hb)
      exact .unclosed hpos (Draft.nested_iff.mpr ⟨d, hd⟩) (by omega)
  case error e =>
    have hr : readTokens tokens = .error e := by
      rw [readTokens, hd]
      rfl
    obtain ⟨before, token, after, d, ht, hok, herr⟩ := Draft.readTokens_error hd
    rw [hr, (Draft.read_error herr).1]
    refine .unmatched (Draft.nested_iff.mpr ⟨d, hok⟩) (fun hnested => ?_) ht
    obtain ⟨d', hd'⟩ := Draft.nested_iff.mp hnested
    rw [Draft.readTokens_snoc hok token, herr] at hd'
    cases hd'

theorem readTokens_of_reading (h : Reading tokens r) : readTokens tokens = r := by
  cases h
  case values h => simp [readTokens_ok (foldlM_of_lexemes h), Draft.finish]
  case unclosed n hpos hn hmore =>
    obtain ⟨d, hd⟩ := Draft.nested_iff.mp hn
    have hsize := Draft.size_readTokens hd
    have hb : d.blocks.size = n := by omega
    have hne : d.blocks ≠ #[] := by
      rintro he
      rw [he, Array.size_empty] at hb
      omega
    simp [readTokens_ok hd, Draft.finish, hne, hb]
  case unmatched before token after hn hfirst ht =>
    obtain ⟨d, hok⟩ := Draft.nested_iff.mp hn
    cases hd : d.read token
    case ok d' =>
      have hsnoc := (Draft.readTokens_snoc hok token).trans hd
      exact absurd (Draft.nested_iff.mpr ⟨d', hsnoc⟩) hfirst
    case error =>
      rw [← (Draft.read_error hd).1, readTokens, ht, List.foldlM_append, hok]
      show (do (← List.foldlM Draft.read d (token :: after)).finish) = _
      rw [List.foldlM_cons, hd]
      rfl

-- Where reading gives values, the braces are balanced, and the other way round.
theorem balanced_of_lexemes (h : lexemesOfAll vs = Token.kinds tokens) :
    Lexeme.Nested (Token.kinds tokens) ∧
      (Token.kinds tokens).countP Lexeme.isOpening =
        (Token.kinds tokens).countP Lexeme.isClosing := by
  have hd := foldlM_of_lexemes h
  have hsize := Draft.size_readTokens hd
  exact ⟨Draft.nested_iff.mpr ⟨_, hd⟩, by simpa using hsize.symm⟩

theorem nested_of_parts (ht : tokens = before ++ token :: after)
    (hn : Lexeme.Nested (Token.kinds tokens)) :
    Lexeme.Nested (Token.kinds (before ++ [token])) := by
  refine fun part hp => hn part (hp.trans ?_)
  exact ⟨Token.kinds after, by simp [ht, Token.kinds]⟩

theorem exists_lexemes_of_balanced (h : Reading tokens r) (hn : Lexeme.Nested (Token.kinds tokens))
    (hb : (Token.kinds tokens).countP Lexeme.isOpening =
      (Token.kinds tokens).countP Lexeme.isClosing) :
    ∃ vs, lexemesOfAll vs = Token.kinds tokens := by
  cases h
  case values hv => exact ⟨_, hv⟩
  case unclosed hpos _ hmore => omega
  case unmatched hfirst ht =>
    exact absurd (nested_of_parts ht hn) hfirst

theorem readAll_eq_iff : readAll text = r ↔ Reading (Token.wordsOf text) r := by
  rw [readAll_eq]
  exact ⟨fun h => h ▸ reading_readTokens (by simp [Token.wordsOf]), readTokens_of_reading⟩

theorem readBlock_eq_ok_iff : readBlock text = .ok body ↔ readAll text = .ok [.block body] := by
  refine ⟨readAll_of_readBlock, fun h => ?_⟩
  rw [readBlock, h]
  rfl

theorem readBlock_not_block (h : readAll text = .ok vs) (hn : ∀ body, vs ≠ [.block body]) :
    readBlock text = .error (.notOneBlock vs.length) := by
  -- The second alternative of `readBlock` is that `vs` is not of the form in `hn`.
  simp only [readBlock, h, Bind.bind, Except.bind]

theorem reading_undoes_flattening (text : String) :
    let tokens := Token.wordsOf text
    let kinds  := Token.kinds tokens
    (∀ vs, readAll text = .ok vs ↔ lexemesOfAll vs = kinds) ∧
    ((∃ vs, lexemesOfAll vs = kinds) ↔
      Lexeme.Nested kinds ∧ kinds.countP Lexeme.isOpening = kinds.countP Lexeme.isClosing) ∧
    (∀ vs ws, lexemesOfAll vs = kinds → lexemesOfAll ws = kinds → vs = ws) ∧
    ((∃ line column, readAll text = .error (.unmatchedClose line column)) ↔ ¬Lexeme.Nested kinds) ∧
    (∀ line column, readAll text = .error (.unmatchedClose line column) ↔
      ∃ before token after, tokens = before ++ token :: after ∧
        Lexeme.Nested (Token.kinds before) ∧ ¬Lexeme.Nested (Token.kinds (before ++ [token])) ∧
        token.line = line ∧ token.column = column) ∧
    (∀ n, readAll text = .error (.unclosed n) ↔
      Lexeme.Nested kinds ∧
        kinds.countP Lexeme.isOpening = kinds.countP Lexeme.isClosing + n ∧ 0 < n) ∧
    (∀ body, readBlock text = .ok body ↔ readAll text = .ok [.block body]) ∧
    (∀ vs, readAll text = .ok vs → (∀ body, vs ≠ [.block body]) →
      readBlock text = .error (.notOneBlock vs.length)) := by
  intro tokens kinds
  have hok {vs : List Value} : readAll text = .ok vs ↔ lexemesOfAll vs = kinds := by
    rw [readAll_eq_iff]
    exact ⟨fun | .values h => h, .values⟩
  have hreading : Reading tokens (readAll text) := readAll_eq_iff.mp rfl
  refine ⟨fun _ => hok, ⟨fun ⟨vs, h⟩ => balanced_of_lexemes h, fun ⟨hn, hb⟩ => ?_⟩,
    fun vs ws hv hw => ?_, ?_, fun line column => ?_, fun n => ?_, fun _ => readBlock_eq_ok_iff,
    fun _ => readBlock_not_block⟩
  · exact exists_lexemes_of_balanced hreading hn hb
  · exact Except.ok.inj ((hok.mpr hv).symm.trans (hok.mpr hw))
  · constructor
    · rintro ⟨line, column, h⟩ hn
      match readAll_eq_iff.mp h with
      | .unmatched _ hfirst ht => exact hfirst (nested_of_parts ht hn)
    · intro hn
      match readAll text, hreading with
      | _, .values hv            => exact absurd (balanced_of_lexemes hv).1 hn
      | _, .unclosed _ hnested _ => exact absurd hnested hn
      | _, .unmatched ..         => exact ⟨_, _, rfl⟩
  · rw [readAll_eq_iff]
    constructor
    · exact fun | .unmatched hn hfirst ht => ⟨_, _, _, ht, hn, hfirst, rfl, rfl⟩
    · rintro ⟨before, token, after, ht, hn, hfirst, rfl, rfl⟩
      exact .unmatched hn hfirst ht
  · rw [readAll_eq_iff]
    constructor
    · exact fun | .unclosed hpos hn hmore => ⟨hn, hmore, hpos⟩
    · exact fun ⟨hn, hmore, hpos⟩ => .unclosed hpos hn hmore

-- A text of two nested blocks, one of two words, and one with a brace too many in its second line.
theorem nested_block_unflattened :
    readBlock "\x7b a \x7b b \x7d  \x7d" = .ok [.operator "a", .block [.operator "b"]] ∧
    readBlock "a b" = .error (.notOneBlock 2) ∧
    readAll "a \x7b\r\n\x7d \x7d" = .error (.unmatchedClose 2 3) := by
  obtain ⟨hread, _, _, _, _, _, hblock, _⟩ := reading_undoes_flattening "\x7b a \x7b b \x7d  \x7d"
  obtain ⟨hwords, _, _, _, _, _, _, hother⟩ := reading_undoes_flattening "a b"
  obtain ⟨_, _, _, _, hplace, _⟩ := reading_undoes_flattening "a \x7b\r\n\x7d \x7d"
  refine ⟨(hblock _).mpr ((hread _).mpr rfl), ?_, (hplace 2 3).mpr ?_⟩
  · exact hother [.operator "a", .operator "b"] ((hwords _).mpr rfl) nofun
  · let before : List Token := [⟨"a", 1, 1⟩, ⟨"\x7b", 1, 3⟩, ⟨"\x7d", 2, 1⟩]
    refine ⟨before, ⟨"\x7d", 2, 3⟩, [], rfl, ?_, ?_, rfl, rfl⟩
    · exact Draft.nested_iff.mpr ⟨_, rfl⟩
    · intro h
      exact absurd (h _ (List.prefix_refl _)) (by decide)

end Value
end StackScript
