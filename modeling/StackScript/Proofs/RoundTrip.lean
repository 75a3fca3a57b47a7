import StackScript.Proofs.Reading
import StackScript.Proofs.Words

namespace StackScript

namespace Value

-- What a text can hold, up to what its numbers are like.
inductive Written (numbers : Float → Prop) : Value → Prop
  | number   : numbers x → Written numbers (number x)
  | symbol   : SymbolName name → Written numbers (symbol name)
  | operator : OperatorName name → Written numbers (operator name)
  | block    : (∀ v ∈ body, Written numbers v) → Written numbers (block body)

-- What is read back from its text.
def Printable : Value → Prop :=
  Written (·.isFinite)

-- What can be read from some text.
def Legible : Value → Prop :=
  Written (·.isNaN = false)

mutual

-- What the text of a value is read as. A number that is not finite has no literal, only a name.
def shown : Value → Value
  | number x   => if x.isFinite then number x else operator (Number.text x)
  | block body => block (shownAll body)
  | v          => v

def shownAll : List Value → List Value
  | []      => []
  | v :: vs => shown v :: shownAll vs

end

variable {numbers : Float → Prop} {v : Value} {body : List Value}

theorem wordsOfAll_eq (vs : List Value) : wordsOfAll vs = vs.flatMap words := by
  induction vs
  case nil          => rfl
  case cons v vs hi => simp [wordsOfAll, hi]

theorem shownAll_of_forall (h : ∀ v ∈ body, v.shown = v) : shownAll body = body := by
  induction body
  case nil          => rfl
  case cons v vs hi =>
    rw [shownAll, h v List.mem_cons_self, hi fun w hw => h w (List.mem_cons_of_mem v hw)]

theorem Written.unbroken (h : v.Written numbers) : ∀ word ∈ v.words, Unbroken word.toList := by
  induction h
  case number x _ =>
    simp only [words, List.mem_singleton, forall_eq]
    exact ⟨fun h => (Number.mem_text h).1 rfl, fun h => (Number.mem_text h).2.1 rfl⟩
  case symbol name h =>
    have hu := h.unbroken
    simpa [words, Unbroken] using hu
  case operator name h => simpa [words] using h.unbroken
  case block body _ hi =>
    intro word hw
    simp only [words, wordsOfAll_eq, List.mem_cons, List.mem_append, List.mem_flatMap,
      List.not_mem_nil, or_false] at hw
    rcases hw with rfl | ⟨v, hv, hw⟩ | rfl
    · unfold Unbroken; decide
    · exact hi v hv word hw
    · unfold Unbroken; decide

end Value

namespace Draft

theorem add_open (d : Draft) (older : Array (Array Value)) (body : Array Value) (v : Value) :
    add { d with blocks := older.push body } v = { d with blocks := older.push (body.push v) } := by
  simp [add]

theorem addAll_open (d : Draft) (older : Array (Array Value)) (body : Array Value)
    (vs : List Value) :
    vs.foldl add { d with blocks := older.push body } =
      { d with blocks := older.push (body ++ vs) } := by
  induction vs generalizing body
  case nil          => simp
  case cons v vs hi => simp [add_open, hi]

theorem addAll_closed (d : Draft) (vs : List Value) (h : d.blocks = #[]) :
    vs.foldl add d = { d with values := d.values ++ vs } := by
  induction vs generalizing d
  case nil          => simp
  case cons v vs hi =>
    have ha : d.add v = { d with values := d.values.push v } := by simp [add, h]
    rw [List.foldl_cons, ha, hi { d with values := d.values.push v } h]
    simp

end Draft

-- Words that are read as the values `vs`, wherever they stand.
def Reads (words : List String) (vs : List Value) : Prop :=
  ∀ (tokens : List Token) (d : Draft), tokens.map (·.text) = words →
    tokens.foldlM Draft.read d = .ok (vs.foldl Draft.add d)

namespace Reads

variable {word : String} {words words₁ words₂ : List String} {vs vs₁ vs₂ : List Value}

theorem nil : Reads [] [] := by
  intro tokens d h
  rw [List.map_eq_nil_iff.mp h]
  rfl

theorem append (h₁ : Reads words₁ vs₁) (h₂ : Reads words₂ vs₂) :
    Reads (words₁ ++ words₂) (vs₁ ++ vs₂) := by
  intro tokens d h
  obtain ⟨tokens₁, tokens₂, rfl, ht₁, ht₂⟩ := List.map_eq_append_iff.mp h
  rw [List.foldlM_append, h₁ tokens₁ d ht₁, List.foldl_append]
  exact h₂ tokens₂ _ ht₂

theorem value (h : Lexeme.ofWord word = .value v) : Reads [word] [v] := by
  intro tokens d ht
  obtain ⟨token, rfl, hw⟩ := List.map_eq_singleton_iff.mp ht
  simp [Draft.read, hw, h, List.foldlM]

theorem block (h : Reads words vs) :
    Reads (Value.openWord :: (words ++ [Value.closeWord])) [.block vs] := by
  intro tokens d ht
  obtain ⟨first, rest, rfl, hfirst, hrest⟩ := List.map_eq_cons_iff.mp ht
  obtain ⟨inner, last, rfl, hinner, hl⟩ := List.map_eq_append_iff.mp hrest
  obtain ⟨last, rfl, hlast⟩ := List.map_eq_singleton_iff.mp hl
  have ho : Lexeme.ofWord first.text = .opening := by rw [hfirst]; rfl
  have hc : Lexeme.ofWord last.text = .closing := by rw [hlast]; rfl
  have hopen : d.read first = .ok { d with blocks := d.blocks.push #[] } := by simp [Draft.read, ho]
  have hbody := h inner { d with blocks := d.blocks.push #[] } hinner
  rw [Draft.addAll_open] at hbody
  have hclose : Draft.read { d with blocks := d.blocks.push ((#[] : Array Value) ++ vs) } last =
      .ok (d.add (.block vs)) := by
    simp [Draft.read, hc]
  rw [List.foldlM_cons, hopen]
  show List.foldlM Draft.read _ (inner ++ [last]) = _
  rw [List.foldlM_append, hbody]
  show List.foldlM Draft.read _ [last] = _
  rw [List.foldlM_cons, hclose]
  rfl

theorem all (h : ∀ v ∈ body, Reads v.words [v.shown]) :
    Reads (Value.wordsOfAll body) (Value.shownAll body) := by
  induction body
  case nil => exact .nil
  case cons v vs hi =>
    have hv := h v List.mem_cons_self
    exact hv.append (hi fun w hw => h w (List.mem_cons_of_mem v hw))

theorem readAll (h : Reads words vs) (ht : (Token.ofSource text).map (·.text) = words) :
    Value.readAll text = .ok vs := by
  have hr := h _ {} ht
  rw [Draft.addAll_closed _ _ rfl] at hr
  simp [Value.readAll, hr, Draft.finish, bind, Except.bind]

end Reads

namespace Value

variable {numbers : Float → Prop} {v : Value} {body : List Value}

theorem Written.reads (h : v.Written numbers) : Reads v.words [v.shown] := by
  induction h
  case number x _ =>
    refine .value ?_
    unfold shown
    split
    case isTrue hf  => exact Lexeme.ofWord_number (Number.read?_text hf)
    case isFalse hf =>
      have ht := Number.text_not_finite (by simpa using hf)
      simp only [List.mem_cons, List.not_mem_nil, or_false] at ht
      rcases ht with ht | ht | ht <;> rw [ht] <;> rfl
  case symbol h   => exact .value (Lexeme.ofWord_symbol h.nonempty)
  case operator h => exact .value (Lexeme.ofWord_operator h)
  case block _ hi => exact .block (.all hi)

-- A text ends as its last word does.
theorem getLast?_text (body : List Value) : (block body).text.toList.getLast? = some '\x7d' := by
  have hw : (block body).words = (openWord :: wordsOfAll body) ++ [closeWord] := rfl
  rw [text, hw, String.intercalate_append_of_ne_nil (by simp) (by simp),
    String.intercalate_singleton, String.toList_append, List.getLast?_append]
  rfl

theorem Written.map_text (h : v.Written numbers) (hr : v.text.toList.getLast? ≠ some '\r') :
    (Token.ofSource v.text).map (·.text) = v.words :=
  Token.map_text_intercalate (by cases v <;> simp [words]) h.unbroken hr

theorem Written.readAll (h : v.Written numbers) (hr : v.text.toList.getLast? ≠ some '\r') :
    readAll v.text = .ok [v.shown] :=
  h.reads.readAll (h.map_text hr)

theorem readBlock_text (h : ∀ v ∈ body, v.Written numbers) :
    readBlock (block body).text = .ok (shownAll body) := by
  have hr := Written.readAll (.block h) (by rw [getLast?_text]; decide)
  simp [readBlock, hr, shown, bind, Except.bind]

end Value

theorem Lexeme.legible_ofWord (hu : Unbroken word.toList) (h : Lexeme.ofWord word = .value v) :
    v.Legible := by
  rcases ofWord_value hu h with ⟨x, rfl, hx⟩ | ⟨name, rfl, _, hn⟩ | ⟨rfl, hn⟩
  · exact .number (Number.not_isNaN_of_read? hx)
  · exact .symbol hn
  · exact .operator hn

namespace Draft

structure Legible (d : Draft) : Prop where
  values : ∀ v ∈ d.values, v.Legible
  blocks : ∀ body ∈ d.blocks, ∀ v ∈ body, v.Legible

variable {d d' : Draft}

theorem Legible.add (h : d.Legible) (hv : v.Legible) : (d.add v).Legible := by
  cases hb : d.blocks.back?
  case none =>
    have hb : d.blocks = #[] := by simpa using hb
    refine ⟨fun u hu => ?_, by simp [d.add_blocks_empty v hb]⟩
    have hu : u ∈ d.values.push v := by simpa [Draft.add, hb] using hu
    cases Array.mem_push.mp hu
    case inl hu => exact h.values u hu
    case inr hu => exact hu ▸ hv
  case some body =>
    obtain ⟨older, hb⟩ := Array.back?_eq_some_iff.mp hb
    have hd : d.add v = { d with blocks := older.push (body.push v) } := by simp [Draft.add, hb]
    rw [hd]
    exact ⟨h.values, Stack.forall_capture (hb ▸ h.blocks) hv⟩

theorem Legible.read (h : d.Legible) (hu : Unbroken token.text.toList)
    (hr : d.read token = .ok d') : d'.Legible := by
  unfold Draft.read at hr
  cases hw : Lexeme.ofWord token.text <;> simp only [hw] at hr
  case blank => cases hr; exact h
  case opening =>
    cases hr
    refine ⟨h.values, fun body hb => ?_⟩
    cases Array.mem_push.mp hb
    case inl hb => exact h.blocks body hb
    case inr hb => simp [hb]
  case value v =>
    cases hr
    exact h.add (Lexeme.legible_ofWord hu hw)
  case closing =>
    cases hb : d.blocks.back? <;> rw [hb] at hr <;> cases hr
    case some body =>
      obtain ⟨older, hb⟩ := Array.back?_eq_some_iff.mp hb
      have hold := hb ▸ h.blocks
      refine Legible.add ⟨h.values, fun block hm => ?_⟩ (.block fun v hv => ?_)
      · have hm : block ∈ older := by simpa [hb] using hm
        exact hold block (Array.mem_push_of_mem body hm)
      · exact hold body Array.mem_push_self v (by simpa using hv)

-- The run lemma, by induction on the tokens.
theorem Legible.readTokens {tokens : List Token} (h : d.Legible)
    (hu : ∀ token ∈ tokens, Unbroken token.text.toList) (hr : tokens.foldlM Draft.read d = .ok d') :
    d'.Legible := by
  induction tokens generalizing d
  case nil => cases hr; exact h
  case cons token tokens hi =>
    rw [List.foldlM_cons] at hr
    cases hd : d.read token <;> rw [hd] at hr
    case error => cases hr
    case ok =>
      have ht := h.read (hu token List.mem_cons_self) hd
      exact hi ht (fun t hm => hu t (List.mem_cons_of_mem token hm)) hr

end Draft

namespace Value

variable {v w : Value} {source : String} {vs ws values body : List Value}

theorem legible_of_readAll (h : readAll source = .ok values) : ∀ v ∈ values, v.Legible := by
  have ⟨d, hd, _, hv⟩ := readAll_ok h
  have hl : d.Legible :=
    .readTokens ⟨by simp, by simp⟩ (fun _ => Token.unbroken_of_mem_ofSource) hd
  intro v hm
  exact hl.values v (by simpa [← hv] using hm)

theorem readAll_of_readBlock (h : readBlock source = .ok body) :
    readAll source = .ok [.block body] := by
  unfold readBlock at h
  cases hr : readAll source <;> simp only [hr, Bind.bind, Except.bind] at h
  case error => cases h
  case ok values =>
    split at h <;> cases h
    rfl

theorem legible_of_readBlock (h : readBlock source = .ok body) : ∀ v ∈ body, v.Legible := by
  have hl := legible_of_readAll (readAll_of_readBlock h) (.block body) List.mem_cons_self
  cases hl
  case block hb => exact hb

section Same

theorem exists_same_of_mem (h : allSame vs ws) (hw : w ∈ ws) : ∃ v ∈ vs, same v w := by
  induction vs generalizing ws <;> cases ws <;> simp only [allSame, Bool.and_eq_true] at h
  case nil.nil  => cases hw
  case nil.cons => cases h
  case cons.nil => cases hw
  case cons.cons v vs hi w' ws =>
    cases List.mem_cons.mp hw
    case inl he => exact ⟨v, List.mem_cons_self, he ▸ h.1⟩
    case inr hm =>
      have ⟨u, hu, hs⟩ := hi h.2 hm
      exact ⟨u, List.mem_cons_of_mem v hu, hs⟩

theorem allSame_self (h : ∀ v ∈ vs, same v v) : allSame vs vs := by
  induction vs
  case nil => rfl
  case cons v vs hi =>
    have hv := h v List.mem_cons_self
    simpa [allSame, hv] using hi fun w hw => h w (List.mem_cons_of_mem v hw)

theorem same_shown_of_allSame (h : allSame (shownAll vs) vs) : ∀ v ∈ vs, same v.shown v := by
  induction vs
  case nil => simp
  case cons v vs hi =>
    have ⟨hv, hvs⟩ : same v.shown v = true ∧ allSame (shownAll vs) vs = true := by
      simpa [shownAll, allSame] using h
    simpa [hv] using hi hvs

-- Values that are equal up to their numbers are written with the same names.
theorem Written.of_same (h : v.Written numbers) (hs : same v w) : w.Written fun _ => True := by
  induction h generalizing w <;> cases w <;> simp only [same, beq_iff_eq, Bool.false_eq_true] at hs
  case number.number         => exact .number trivial
  case symbol.symbol h _     => exact .symbol (hs ▸ h)
  case operator.operator h _ => exact .operator (hs ▸ h)
  case block.block hi _      =>
    refine .block fun w hw => ?_
    have ⟨v, hv, hs⟩ := exists_same_of_mem hs hw
    exact hi v hv hs

theorem Legible.same_self (h : v.Legible) : same v v := by
  induction h
  case number h => exact Number.beq_self h
  case symbol   => simp [same]
  case operator => simp [same]
  case block hi => exact allSame_self hi

theorem Printable.shown_eq (h : v.Printable) : v.shown = v := by
  induction h
  case number h => exact if_pos h
  case symbol   => rfl
  case operator => rfl
  case block hi => rw [shown, shownAll_of_forall hi]

theorem Written.printable_of_same (h : v.Written numbers) (hs : same v.shown v) : v.Printable := by
  induction h
  case number x _ =>
    unfold shown at hs
    split at hs
    case isTrue hf => exact .number hf
    case isFalse   => cases hs
  case symbol h   => exact .symbol h
  case operator h => exact .operator h
  case block hi   => exact .block fun v hv => hi v hv (same_shown_of_allSame hs v hv)

end Same

theorem readBlock_of_printable (h : ∀ v ∈ body, v.Printable) :
    readBlock (block body).text = .ok body := by
  rw [readBlock_text h, shownAll_of_forall fun v hv => (h v hv).shown_eq]

theorem printable_of_readBlock (h : readBlock (block body).text = .ok values)
    (hs : allSame values body) : ∀ v ∈ body, v.Printable := by
  have hw : ∀ v ∈ body, v.Written fun _ => True := by
    intro v hv
    have ⟨u, hu, hs⟩ := exists_same_of_mem hs hv
    exact (legible_of_readBlock h u hu).of_same hs
  have he : values = shownAll body := Except.ok.inj (h.symm.trans (readBlock_text hw))
  exact fun v hv => (hw v hv).printable_of_same (same_shown_of_allSame (he ▸ hs) v hv)

-- A name at the end of a text loses its carriage return.
def EndsInReturn : Value → Prop
  | symbol name | operator name => name.toList.getLast? = some '\r'
  | _                           => False

theorem Written.text_return_iff (h : v.Written numbers) :
    v.text.toList.getLast? = some '\r' ↔ v.EndsInReturn := by
  cases h
  case number x _ =>
    refine iff_of_false (fun hr => ?_) (by simp [EndsInReturn])
    have hm : '\r' ∈ (Number.text x).toList := by
      simpa [text, words] using List.mem_of_getLast? hr
    exact (Number.mem_text hm).2.2 rfl
  case symbol name h =>
    have hn : name.toList ≠ [] := by simpa using h.nonempty
    have ht : (Value.symbol name).text.toList = ['/'] ++ name.toList := by simp [text, words]
    have hl : (['/'] ++ name.toList).getLast? = name.toList.getLast? := by
      rw [List.getLast?_append, List.getLast?_eq_some_getLast hn]
      rfl
    rw [ht, hl]
    rfl
  case operator => simp [text, words, EndsInReturn]
  case block    => simp [getLast?_text, EndsInReturn]

theorem readAll_singleton (ht : (Token.ofSource source).map (·.text) = [word])
    (h : readAll source = .ok [v]) : Lexeme.ofWord word = .value v := by
  obtain ⟨token, hs, rfl⟩ := List.map_eq_singleton_iff.mp ht
  have ⟨d, hd, hb, hv⟩ := readAll_ok h
  have hd : Draft.read {} token = .ok d := by simpa [hs] using hd
  unfold Draft.read at hd
  cases hw : Lexeme.ofWord token.text <;> simp only [hw] at hd <;> cases hd
  case blank   => cases hv
  case opening => simp at hb
  case value   => simpa [Draft.add] using hv

theorem words_ofWord (hu : Unbroken word.toList) (h : Lexeme.ofWord word = .value v)
    (hr : v.EndsInReturn) : v.words = [word] := by
  rcases Lexeme.ofWord_value hu h with ⟨x, rfl, _⟩ | ⟨name, rfl, hw, _⟩ | ⟨rfl, _⟩
  · cases hr
  · rw [hw]
    rfl
  · rfl

-- What is read is the word without its last character, so it is another name.
theorem readAll_return (hv : v.Written numbers) (h : v.EndsInReturn) :
    readAll v.text ≠ .ok [v] := by
  intro hr
  have ⟨word, hw⟩ : ∃ word, v.words = [word] := by
    cases v <;> simp [EndsInReturn] at h <;> exact ⟨_, rfl⟩
  have htext : v.text = word := by simp [text, hw]
  have hu : Unbroken word.toList := hv.unbroken word (by simp [hw])
  have hlast : word.toList.getLast? = some '\r' := htext ▸ hv.text_return_iff.mpr h
  let short := String.ofList word.toList.dropLast
  have hs : Unbroken short.toList := by
    rw [String.toList_ofList]
    exact ⟨fun hm => hu.1 (List.dropLast_subset _ hm), fun hm => hu.2 (List.dropLast_subset _ hm)⟩
  have ht : (Token.ofSource word).map (·.text) = [short] := by
    have hspace := String.toList_ofList ▸ hs.1
    rw [Token.map_text_ofSource hu.2, Token.dropReturn, if_pos hlast,
      List.splitOn_eq_singleton hspace]
    rfl
  have he := words_ofWord hs (readAll_singleton ht (htext ▸ hr)) h
  have hlen : word.toList.length = word.toList.length - 1 := by
    have : word = short := by simpa [hw] using he
    simpa [short] using congrArg (·.toList.length) this
  have hne : word.toList ≠ [] := fun hn => by simp [hn] at hlast
  have := List.length_pos_iff.mpr hne
  omega

theorem readAll_of_printable (h : v.Printable) (hr : ¬v.EndsInReturn) :
    readAll v.text = .ok [v] := by
  rw [Written.readAll h (mt (Written.text_return_iff h).mp hr), h.shown_eq]

-- A name that is read as an equal one is read as itself.
theorem eq_of_same (h : same v w) (hr : w.EndsInReturn) : v = w := by
  cases v <;> cases w <;> simp_all [same, EndsInReturn]

theorem printable_of_readAll (h : readAll v.text = .ok values) (hs : allSame values [v]) :
    v.Printable ∧ ¬v.EndsInReturn := by
  obtain ⟨u, rfl, hu⟩ : ∃ u, values = [u] ∧ same u v := by
    rcases values with _ | ⟨u, _ | ⟨_, _⟩⟩ <;> simp [allSame] at hs
    exact ⟨u, rfl, hs⟩
  have hw := (legible_of_readAll h u List.mem_cons_self).of_same hu
  have hr : ¬v.EndsInReturn := fun hr => readAll_return hw hr (eq_of_same hu hr ▸ h)
  have he : u = v.shown := by simpa [h] using hw.readAll (mt hw.text_return_iff.mp hr)
  exact ⟨hw.printable_of_same (he ▸ hu), hr⟩

-- Whether doubles are compared as such or as numbers, a block is read back if its values can be,
-- and only then; and so is a value on its own, unless it is a name that ends in a carriage return.
theorem text_round_trip :
    (∀ body : List Value,
      (readBlock (block body).text = .ok body ↔ ∀ v ∈ body, v.Printable) ∧
      ((∃ values, readBlock (block body).text = .ok values ∧ allSame values body) ↔
        ∀ v ∈ body, v.Printable)) ∧
    (∀ v : Value,
      (readAll v.text = .ok [v] ↔ v.Printable ∧ ¬v.EndsInReturn) ∧
      ((∃ values, readAll v.text = .ok values ∧ allSame values [v]) ↔
        v.Printable ∧ ¬v.EndsInReturn)) := by
  refine ⟨fun body => ?_, fun v => ?_⟩
  · have hself (h : readBlock (block body).text = .ok body) : allSame body body :=
      allSame_self fun v hv => (legible_of_readBlock h v hv).same_self
    refine ⟨⟨fun h => printable_of_readBlock h (hself h), readBlock_of_printable⟩, ?_, ?_⟩
    · exact fun ⟨values, h, hs⟩ => printable_of_readBlock h hs
    · exact fun h => ⟨body, readBlock_of_printable h, hself (readBlock_of_printable h)⟩
  · have hself (h : readAll v.text = .ok [v]) : allSame [v] [v] :=
      allSame_self fun u hu => (legible_of_readAll h u hu).same_self
    refine ⟨⟨fun h => ?_, fun h => readAll_of_printable h.1 h.2⟩, ?_, ?_⟩
    · exact printable_of_readAll h (hself h)
    · exact fun ⟨values, h, hs⟩ => printable_of_readAll h hs
    · intro h
      have hr := readAll_of_printable h.1 h.2
      exact ⟨[v], hr, hself hr⟩

end Value
end StackScript
