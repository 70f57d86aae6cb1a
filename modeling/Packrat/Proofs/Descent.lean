import Packrat.Proofs.Actions
import Packrat.Proofs.Reading

/-!
# The lambda calculus by recursive descent

Reading an expression by hand, with one function for each kind of phrase, and the proof that parsing with
the sample grammar comes to the same (`parse_eq_readExpression`). The grammar tries an application before
a single operand and so reads the first operand again; the functions never go back.
-/

namespace Packrat.Lambda

/-! ## Recursive descent -/

/-- What was read from the start of the characters, and the fewer ones that are left. -/
structure Reading (α : Type) (cs : List Char) where
  value : α
  rest : List Char
  shorter : rest.length < cs.length

/-- Reads the longest run of letters, at least one, and the dot after it. -/
def readParameters (cs : List Char) : Option (Reading (List Char) cs) :=
  if cs.takeWhile isLetter = [] then none
  else
    match h : cs.dropWhile isLetter with
    | '.' :: rest =>
      some ⟨cs.takeWhile isLetter, rest, by
        have hle := (List.dropWhile_suffix isLetter (l := cs)).length_le
        rw [h, List.length_cons] at hle
        omega⟩
    | _ => none

mutual

/-- Reads a letter, an abstraction or an expression in parentheses. -/
def readAtom : (cs : List Char) → Option (Reading Term cs)
  | [] => none
  | c :: cs =>
    if isLetter c then some ⟨.var c, cs, Nat.lt_succ_self _⟩
    else if c = 'λ' then
      match readParameters cs with
      | some ⟨names, body, _⟩ =>
        match readExpression body with
        | some ⟨term, rest, _⟩ => some ⟨.abs names term, rest, by simp only [List.length_cons]; omega⟩
        | none => none
      | none => none
    else if c = '(' then
      match readExpression cs with
      | some ⟨term, ')' :: rest, _⟩ => some ⟨term, rest, by simp only [List.length_cons] at *; omega⟩
      | _ => none
    else none
termination_by cs => (cs.length, 0)

/-- Reads an atom and all that follow it. More than one make an application. -/
def readExpression (cs : List Char) : Option (Reading Term cs) :=
  match readAtom cs with
  | some ⟨first, rest, _⟩ =>
    match readAtoms rest with
    | ([], ⟨rest, _⟩) => some ⟨first, rest, by omega⟩
    | (terms, ⟨rest, _⟩) => some ⟨.app (first :: terms), rest, by omega⟩
  | none => none
termination_by (cs.length, 2)

/-- Reads atoms until there is none. -/
def readAtoms (cs : List Char) : List Term × { rest : List Char // rest.length ≤ cs.length } :=
  match readAtom cs with
  | some ⟨term, rest, _⟩ =>
    match readAtoms rest with
    | (terms, ⟨rest, _⟩) => (term :: terms, ⟨rest, by omega⟩)
  | none => ([], ⟨cs, Nat.le_refl _⟩)
termination_by (cs.length, 1)

end

/-! ## The parsers of the grammar -/

def letter : Parser Piece := .character 2 .letter

def expression : Parser Piece := .choice 1 [0, 1]

def parentheses : Parser Piece :=
  .pair 6 (.pair 4 (.silent 3 .unit) expression "right" fun _ v => v) (.silent 5 .unit) "left" fun v _ => v

def operand : Parser Piece := .choice 7 [2, 3, 4]

def application : Parser Piece := .pair 9 operand (.plus 8 operand Piece.collectTerms) "app" Piece.apply

def parameters : Parser Piece :=
  .pair 14 (.pair 12 (.silent 10 .unit) (.plus 11 letter Piece.collectLetters) "right" fun _ v => v)
    (.silent 13 .unit) "left" fun v _ => v

def abstraction : Parser Piece := .pair 15 parameters expression "abs" Piece.lambdaOf

theorem root_eq : root = expression := rfl

theorem target_application : workspace.grammar.parserTarget 0 = some application := rfl

theorem target_operand : workspace.grammar.parserTarget 1 = some operand := rfl

theorem target_letter :
    workspace.grammar.parserTarget 2 = some (.map letter "var" Piece.variableOf) := rfl

theorem target_abstraction : workspace.grammar.parserTarget 3 = some abstraction := rfl

theorem target_parentheses : workspace.grammar.parserTarget 4 = some parentheses := rfl

/-! ## Parsers that read by descent -/

variable {text : Buffer} {cs : List Char}

/-- Wherever `cs` is left of the text, the parser comes to what was read by hand. -/
def Implements {α : Type} (text : Buffer) (p : Parser Piece) (cs : List Char) (embed : α → Piece)
    {cs' : List Char} : Option (Reading α cs') → Prop
  | some r => Reads workspace.grammar text p cs (embed r.value) r.rest
  | none => Fails workspace.grammar text p cs

theorem letter_fails (h : ∀ c ∈ cs.head?, isLetter c = false) : Fails workspace.grammar text letter cs :=
  .character rfl h

theorem abstraction_fails (h : ∀ c ∈ cs.head?, c ≠ 'λ') : Fails workspace.grammar text abstraction cs :=
  .pair_first (.pair_first (.pair_first (.literal rfl h)))

theorem parentheses_fail (h : ∀ c ∈ cs.head?, c ≠ '(') : Fails workspace.grammar text parentheses cs :=
  .pair_first (.pair_first (.literal rfl h))

namespace Implements

variable {α : Type} {a : Parser Piece} {r : RuleId} {slot : Nat} {slots : List Nat} {embed : α → Piece}
  {cs' : List Char} {reading : Option (Reading α cs')}

theorem choice_first (hs : workspace.grammar.parserTarget slot = some a)
    (h : Implements text a cs embed reading) (hrest : Fails workspace.grammar text (.choice r slots) cs) :
    Implements text (.choice r (slot :: slots)) cs embed reading := by
  cases reading with
  | some x => exact Reads.choice_first hs h
  | none => exact Fails.choice_next hs h hrest

theorem choice_next (hs : workspace.grammar.parserTarget slot = some a)
    (ha : Fails workspace.grammar text a cs) (h : Implements text (.choice r slots) cs embed reading) :
    Implements text (.choice r (slot :: slots)) cs embed reading := by
  cases reading with
  | some x => exact Reads.choice_next hs ha h
  | none => exact Fails.choice_next hs ha h

end Implements

theorem toLetters_letter (names : List Char) :
    (names.map Piece.letter).flatMap Piece.toLetters = names := by
  induction names with
  | nil => rfl
  | cons c names ih => simpa [Piece.toLetters] using ih

theorem toTerms_term (terms : List Term) : (terms.map Piece.term).flatMap Piece.toTerms = terms := by
  induction terms with
  | nil => rfl
  | cons t terms ih => simpa [Piece.toTerms] using ih

theorem letters_read (h : cs.takeWhile isLetter ≠ []) :
    Reads workspace.grammar text (.plus 11 letter Piece.collectLetters) cs
      (.letters (cs.takeWhile isLetter)) (cs.dropWhile isLetter) := by
  cases cs with
  | nil => exact absurd rfl h
  | cons c cs =>
      cases ht : isLetter c with
      | false => simp [ht] at h
      | true =>
          have hvalue : Piece.letters (c :: cs.takeWhile isLetter) =
              Piece.collectLetters (.letter c :: (cs.takeWhile isLetter).map .letter) := by
            simp [Piece.collectLetters, Piece.toLetters, toLetters_letter]
          simp only [List.takeWhile_cons, List.dropWhile_cons, ht, if_true]
          rw [hvalue]
          exact .plus (.character rfl ht) (.star_character rfl)

theorem letters_fail (h : cs.takeWhile isLetter = []) :
    Fails workspace.grammar text (.plus 11 letter Piece.collectLetters) cs := by
  refine .plus (letter_fails fun c hc => ?_)
  obtain ⟨rest, rfl⟩ := List.head?_eq_some_iff.mp hc
  simpa [List.takeWhile_cons] using h

theorem parameters_implement : Implements text parameters ('λ' :: cs) .letters (readParameters cs) := by
  have hlambda : Reads workspace.grammar text (.silent 10 .unit) ('λ' :: cs) Piece.unit cs := .literal rfl
  unfold readParameters
  by_cases hnames : cs.takeWhile isLetter = []
  · rw [if_pos hnames]
    exact .pair_first (.pair_second hlambda (letters_fail hnames))
  · rw [if_neg hnames]
    have hletters : Reads workspace.grammar text _ cs _ _ := letters_read hnames
    split
    · next rest hrest =>
      rw [hrest] at hletters
      exact .pair (.pair hlambda hletters) (.literal rfl)
    · next hnot =>
      refine Fails.pair_second (.pair hlambda hletters) (.literal (c := '.') rfl fun c hc he => ?_)
      obtain ⟨rest, hrest⟩ := List.head?_eq_some_iff.mp hc
      exact hnot rest (he ▸ hrest)

/-! ## The recursion -/

theorem abstraction_implements (h : ∀ cs' : List Char, cs'.length < cs.length →
      Implements text expression cs' .term (readExpression cs')) :
    Implements text abstraction ('λ' :: cs) .term (readAtom ('λ' :: cs)) := by
  have hparams : Implements text parameters ('λ' :: cs) .letters (readParameters cs) :=
    parameters_implement
  have hletter : isLetter 'λ' = false := by decide
  simp only [readAtom, hletter, Bool.false_eq_true, if_false, if_true]
  cases hr : readParameters cs with
  | none =>
      rw [hr] at hparams
      exact Fails.pair_first hparams
  | some r =>
      obtain ⟨names, body, hlt⟩ := r
      have hbody := h body hlt
      rw [hr] at hparams
      simp only
      cases hb : readExpression body with
      | none =>
          rw [hb] at hbody
          exact Fails.pair_second hparams hbody
      | some x =>
          rw [hb] at hbody
          exact Reads.pair hparams hbody

theorem parentheses_implement (h : Implements text expression cs .term (readExpression cs)) :
    Implements text parentheses ('(' :: cs) .term (readAtom ('(' :: cs)) := by
  have hopening : Reads workspace.grammar text (.silent 3 .unit) ('(' :: cs) Piece.unit cs := .literal rfl
  have hletter : isLetter '(' = false := by decide
  have hlambda : ¬ '(' = 'λ' := by decide
  simp only [readAtom, hletter, hlambda, Bool.false_eq_true, if_false, if_true]
  cases hr : readExpression cs with
  | none =>
      rw [hr] at h
      exact Fails.pair_first (.pair_second hopening h)
  | some r =>
      obtain ⟨term, rest, hlt⟩ := r
      rw [hr] at h
      split
      · next hsome =>
        cases hsome
        exact Reads.pair (.pair hopening h) (.literal rfl)
      · next hnot =>
        refine Fails.pair_second (.pair hopening h) (.literal (c := ')') rfl fun c hc he => ?_)
        obtain ⟨tail, rfl⟩ := List.head?_eq_some_iff.mp hc
        exact hnot term tail hlt (he ▸ rfl)

/-- An atom is read as an operand, if shorter expressions are read as they should be. -/
theorem operand_implements (h : ∀ cs' : List Char, cs'.length < cs.length →
      Implements text expression cs' .term (readExpression cs')) :
    Implements text operand cs .term (readAtom cs) := by
  cases cs with
  | nil =>
      rw [readAtom]
      exact Fails.choice_next target_letter (.map (letter_fails nofun))
        (.choice_next target_abstraction (abstraction_fails nofun)
          (.choice_next target_parentheses (parentheses_fail nofun) .choice_nil))
  | cons c cs =>
      have hshorter : ∀ cs' : List Char, cs'.length ≤ cs.length →
          Implements text expression cs' .term (readExpression cs') :=
        fun cs' hle => h cs' (Nat.lt_succ_of_le hle)
      cases hletter : isLetter c with
      | true =>
          simp only [readAtom, hletter, if_true]
          exact Reads.choice_first target_letter (.map (.character rfl hletter))
      | false =>
          have hvar : Fails workspace.grammar text (.map letter "var" Piece.variableOf) (c :: cs) :=
            .map (letter_fails (by simpa using hletter))
          apply Implements.choice_next target_letter hvar
          by_cases hlambda : c = 'λ'
          · subst hlambda
            have hparen : Fails workspace.grammar text parentheses ('λ' :: cs) :=
              parentheses_fail (by simp)
            exact .choice_first target_abstraction
              (abstraction_implements fun cs' hlt => hshorter cs' (Nat.le_of_lt hlt))
              (.choice_next target_parentheses hparen .choice_nil)
          · apply Implements.choice_next target_abstraction (abstraction_fails (by simpa using hlambda))
            by_cases hopening : c = '('
            · subst hopening
              exact .choice_first target_parentheses
                (parentheses_implement (hshorter cs (Nat.le_refl _))) .choice_nil
            · simp only [readAtom, hletter, hlambda, hopening, Bool.false_eq_true, if_false]
              exact Fails.choice_next target_parentheses (parentheses_fail (by simpa using hopening))
                .choice_nil

/-- A repetition of operands reads the atoms that follow each other, whatever is made of them. -/
theorem operands_implement {r : RuleId} {collect : List Piece → Piece} {cs : List Char}
    (h : ∀ cs' : List Char, cs'.length ≤ cs.length → Implements text operand cs' .term (readAtom cs')) :
    Reads workspace.grammar text (.star r operand collect) cs
      (collect ((readAtoms cs).1.map .term)) (readAtoms cs).2 := by
  have hfirst := h cs (Nat.le_refl _)
  rw [readAtoms]
  cases hr : readAtom cs with
  | none =>
      rw [hr] at hfirst
      exact .star_stop hfirst
  | some x =>
      obtain ⟨term, rest, hlt⟩ := x
      rw [hr] at hfirst
      exact .star_more hfirst
        (operands_implement fun cs' hle => h cs' (Nat.le_trans hle (Nat.le_of_lt hlt)))
termination_by cs.length

theorem expression_implements (h : ∀ cs' : List Char, cs'.length ≤ cs.length →
      Implements text operand cs' .term (readAtom cs')) :
    Implements text expression cs .term (readExpression cs) := by
  have hfirst := h cs (Nat.le_refl _)
  rw [readExpression]
  cases hr : readAtom cs with
  | none =>
      rw [hr] at hfirst
      exact Fails.choice_next target_application (.pair_first hfirst)
        (.choice_next target_operand hfirst .choice_nil)
  | some x =>
      obtain ⟨first, rest, hlt⟩ := x
      rw [hr] at hfirst
      have hsecond := h rest (Nat.le_of_lt hlt)
      simp only
      rw [readAtoms]
      cases hr : readAtom rest with
      | none =>
          rw [hr] at hsecond
          -- the application has read the operand in vain, and the operand alone is read again
          exact Reads.choice_next target_application (.pair_second hfirst (.plus hsecond))
            (.choice_first target_operand hfirst)
      | some x =>
          obtain ⟨second, rest', hlt'⟩ := x
          rw [hr] at hsecond
          have hshorter : rest'.length ≤ cs.length := Nat.le_of_lt (Nat.lt_trans hlt' hlt)
          have hmore : ∀ collect, Reads workspace.grammar text (.star 8 operand collect) rest' _ _ :=
            fun collect => operands_implement fun cs' hle => h cs' (Nat.le_trans hle hshorter)
          have happ : Reads workspace.grammar text application cs _ _ :=
            .pair hfirst (.plus hsecond (hmore _))
          have hvalue : Piece.apply (.term first)
              (Piece.collectTerms (.term second :: (readAtoms rest').1.map .term)) =
                .term (.app (first :: second :: (readAtoms rest').1)) := by
            simp [Piece.apply, Piece.collectTerms, Piece.toTerms, toTerms_term]
          rw [hvalue] at happ
          exact Reads.choice_first target_application happ

/-- The outer induction is on the length of what is left: an atom leads to shorter expressions only, and
an expression to atoms that are no longer. -/
theorem readAtom_implemented : Implements text operand cs .term (readAtom cs) := by
  induction hn : cs.length using Nat.strong_induction_on generalizing cs with
  | _ n ih =>
      apply operand_implements
      intro cs' hlt
      apply expression_implements
      intro cs'' hle
      exact ih cs''.length (by omega) rfl

theorem readExpression_implemented : Implements text root cs .term (readExpression cs) := by
  rw [root_eq]
  exact expression_implements fun _ _ => readAtom_implemented

/-! ## Parsing an input -/

theorem sample_eq : ∃ names, sample = .ok ⟨"lambda", workspace, root, names, Piece.render⟩ := ⟨_, rfl⟩

theorem sample_parse (input : String) (config : Config) (names : Names) :
    Sample.parse ⟨"lambda", workspace, root, names, Piece.render⟩ input config =
      .ok ((readExpression input.toList).map fun r =>
        ⟨.term r.value, .load 0 input, 0, input.length - r.rest.length⟩) := by
  obtain ⟨known, assembled, hroot⟩ := Lambda.assembled
  have hg := assembled.consistent.aligned_slots
  have hp := assembled.consistent.aligned hroot
  have sound := assembled.consistent.sound
  have himpl : Implements (.load 0 input) root input.toList .term (readExpression input.toList) :=
    readExpression_implemented
  cases hr : readExpression input.toList with
  | some r =>
      rw [hr] at himpl
      obtain ⟨e, he, hy⟩ := himpl 0 .load
      obtain ⟨t, ht, hvalue, hstop⟩ := hy.exists_parsed hg hp (Nat.zero_le _)
      obtain ⟨w', hok, -⟩ := Session.parseSpan_of_parsed hg hp sound ht config
      have hlength : e = input.length - r.rest.length := he.position_eq
      rw [hvalue, hstop, hlength] at hok
      simp only [Sample.parse, Sample.use, Session.capture, hok]
      rfl
  | none =>
      rw [hr] at himpl
      obtain ⟨w', herr, -⟩ := Session.parseSpan_of_rejected hg hp sound (himpl 0 .load) config
      simp only [Sample.parse, Sample.use, Session.capture, herr]
      rfl

/-- Parsing an input with the sample grammar comes to the expression that is read by hand from its start,
and to the end of that expression, and it is rejected if none can be read. -/
theorem parse_eq_readExpression (input : String) (config : Config) :
    (do (← sample).parse input config) = .ok ((readExpression input.toList).map fun r =>
      ⟨.term r.value, .load 0 input, 0, input.length - r.rest.length⟩) ∧
    parseTerm input config = .ok ((readExpression input.toList).map fun r =>
      (r.value, input.length - r.rest.length)) := by
  obtain ⟨names, hs⟩ := sample_eq
  have hparse := sample_parse input config names
  simp only [parseTerm, hs]
  constructor
  · exact hparse
  · change (Sample.parse _ input config >>= _) = _
    rw [hparse]
    cases readExpression input.toList <;> rfl

example : (readExpression ['(', 'x', ')', 'y', ')']).map (fun r => (r.value.chars, r.rest)) =
    some (['(', 'x', ' ', 'y', ')'], [')']) := by cbv

end Packrat.Lambda
