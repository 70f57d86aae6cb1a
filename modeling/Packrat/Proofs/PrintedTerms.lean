import Packrat.Proofs.Descent

/-!
# Terms are read as they are written

A term that was read has letters for names, at least one parameter for each abstraction and at least two
operands for each application. Any such term is read back from its written form, once the blanks between
operands are taken out (`parse_compact`): the parentheses around every application and abstraction keep an
operand from taking what comes after it.
-/

namespace Packrat

namespace Term

/-- Names are letters, an abstraction has parameters, and an application has two operands or more. -/
inductive WellFormed : Term → Prop
  | var {name} (h : Lambda.isLetter name = true) : WellFormed (.var name)
  | abs {params body} (hne : params ≠ []) (hp : ∀ c ∈ params, Lambda.isLetter c = true)
      (hb : WellFormed body) : WellFormed (.abs params body)
  | app {terms} (h : 2 ≤ terms.length) (ht : ∀ t ∈ terms, WellFormed t) : WellFormed (.app terms)

/-! ## Written forms without blanks -/

def dropBlanks (cs : List Char) : List Char := cs.filter fun c => c != ' '

/-- The written form without the blanks between operands. -/
def compact (t : Term) : String := String.ofList (dropBlanks t.display.toList)

def compactChars (t : Term) : List Char := dropBlanks t.chars

variable {c : Char} {cs cs' params : List Char} {body : Term} {terms : List Term}

@[simp] theorem dropBlanks_nil : dropBlanks [] = [] := rfl

@[simp] theorem dropBlanks_blank : dropBlanks (' ' :: cs) = dropBlanks cs := by simp [dropBlanks]

@[simp] theorem dropBlanks_cons (h : c ≠ ' ') : dropBlanks (c :: cs) = c :: dropBlanks cs := by
  simp [dropBlanks, h]

@[simp] theorem dropBlanks_append : dropBlanks (cs ++ cs') = dropBlanks cs ++ dropBlanks cs' := by
  simp [dropBlanks]

theorem ne_blank_of_isLetter (h : Lambda.isLetter c = true) : c ≠ ' ' := by
  rintro rfl
  exact absurd h (by decide)

theorem dropBlanks_letters (h : ∀ c ∈ cs, Lambda.isLetter c = true) : dropBlanks cs = cs := by
  simp only [dropBlanks, List.filter_eq_self, bne_iff_ne]
  exact fun c hc => ne_blank_of_isLetter (h c hc)

theorem toList_compact (t : Term) : t.compact.toList = t.compactChars := by
  simp [compact, compactChars, display]

theorem dropBlanks_charsOfList : dropBlanks (charsOfList terms) = terms.flatMap compactChars := by
  induction terms with
  | nil => rfl
  | cons t rest ih =>
      cases rest with
      | nil => simp [charsOfList, compactChars]
      | cons t' rest => simp [charsOfList, compactChars, ← ih]

theorem compactChars_var (h : Lambda.isLetter c = true) : (var c).compactChars = [c] := by
  simp [compactChars, chars, ne_blank_of_isLetter h]

theorem compactChars_abs (h : ∀ c ∈ params, Lambda.isLetter c = true) : (abs params body).compactChars =
    '(' :: 'λ' :: (params ++ '.' :: (body.compactChars ++ [')'])) := by
  simp [compactChars, chars, dropBlanks_letters h]

theorem compactChars_app :
    (app terms).compactChars = '(' :: (terms.flatMap compactChars ++ [')']) := by
  simp [compactChars, chars, dropBlanks_charsOfList]

end Term

namespace Lambda

variable {α : Type} {c : Char} {cs mid rest names : List Char} {t : Term} {terms : List Term}

/-! ## Reading written forms -/

/-- The reader gives the value and leaves the rest. -/
def Finds (read : (cs : List Char) → Option (Reading α cs)) (cs : List Char) (value : α)
    (rest : List Char) : Prop :=
  (read cs).map (fun r => (r.value, r.rest)) = some (value, rest)

/-- Atoms are read up to where the rest is left. -/
def Collects (cs : List Char) (terms : List Term) (rest : List Char) : Prop :=
  (readAtoms cs).1 = terms ∧ (readAtoms cs).2.val = rest

theorem Finds.eq_some {read : (cs : List Char) → Option (Reading α cs)} {value : α}
    (h : Finds read cs value rest) : ∃ hlt, read cs = some ⟨value, rest, hlt⟩ := by
  obtain ⟨r, hr, he⟩ := Option.map_eq_some_iff.mp h
  cases he
  exact ⟨r.shorter, hr⟩

theorem readParameters_finds (hne : names ≠ []) (h : ∀ c ∈ names, isLetter c = true) :
    Finds readParameters (names ++ '.' :: cs) names cs := by
  have hdot : isLetter '.' = false := by decide
  have htake : (names ++ '.' :: cs).takeWhile isLetter = names := by
    simp [List.takeWhile_append_of_pos h, hdot]
  have hdrop : (names ++ '.' :: cs).dropWhile isLetter = '.' :: cs := by
    simp [List.dropWhile_append_of_pos h, hdot]
  unfold Finds readParameters
  rw [if_neg (by rwa [htake])]
  split
  · next rest hrest =>
    cases hdrop.symm.trans hrest
    simp [htake]
  · next hnot => exact absurd hdrop (hnot cs)

theorem readAtom_letter (h : isLetter c = true) : Finds readAtom (c :: cs) (.var c) cs := by
  simp [Finds, readAtom, h]

theorem readAtom_abstraction (hne : names ≠ []) (hn : ∀ c ∈ names, isLetter c = true)
    (h : Finds readExpression cs t rest) :
    Finds readAtom ('λ' :: (names ++ '.' :: cs)) (.abs names t) rest := by
  have hletter : isLetter 'λ' = false := by decide
  have hfinds : Finds readParameters (names ++ '.' :: cs) names cs := readParameters_finds hne hn
  obtain ⟨_, hparams⟩ := hfinds.eq_some
  obtain ⟨_, hbody⟩ := h.eq_some
  simp [Finds, readAtom, hletter, hparams, hbody]

theorem readAtom_parentheses (h : Finds readExpression cs t (')' :: rest)) :
    Finds readAtom ('(' :: cs) t rest := by
  have hletter : isLetter '(' = false := by decide
  obtain ⟨_, hinner⟩ := h.eq_some
  simp [Finds, readAtom, hletter, hinner]

theorem readAtom_closing : readAtom (')' :: cs) = none := by
  have hletter : isLetter ')' = false := by decide
  simp [readAtom, hletter]

theorem Collects.nil (h : readAtom cs = none) : Collects cs [] cs := by
  unfold Collects
  rw [readAtoms, h]
  exact ⟨rfl, rfl⟩

theorem Collects.cons (h : Finds readAtom cs t mid) (hrest : Collects mid terms rest) :
    Collects cs (t :: terms) rest := by
  obtain ⟨_, hatom⟩ := h.eq_some
  obtain ⟨rfl, rfl⟩ := hrest
  unfold Collects
  rw [readAtoms, hatom]
  exact ⟨rfl, rfl⟩

theorem readExpression_atom (h : Finds readAtom cs t mid) (hrest : Collects mid [] rest) :
    Finds readExpression cs t rest := by
  obtain ⟨_, hatom⟩ := h.eq_some
  unfold Finds
  rw [readExpression, hatom]
  obtain ⟨⟨terms, left⟩, hatoms⟩ : ∃ x, readAtoms mid = x := ⟨_, rfl⟩
  simp only [Collects, hatoms] at hrest
  obtain ⟨rfl, rfl⟩ := hrest
  simp [hatoms]

theorem readExpression_application (h : Finds readAtom cs t mid) {t' : Term}
    (hrest : Collects mid (t' :: terms) rest) :
    Finds readExpression cs (.app (t :: t' :: terms)) rest := by
  obtain ⟨_, hatom⟩ := h.eq_some
  unfold Finds
  rw [readExpression, hatom]
  obtain ⟨⟨terms, left⟩, hatoms⟩ : ∃ x, readAtoms mid = x := ⟨_, rfl⟩
  simp only [Collects, hatoms] at hrest
  obtain ⟨rfl, rfl⟩ := hrest
  simp [hatoms]

/-- Operands that are read as they are written are read one after another. -/
theorem collects_compact (h : ∀ t ∈ terms, ∀ rest, Finds readAtom (t.compactChars ++ rest) t rest)
    (hrest : readAtom rest = none) : Collects (terms.flatMap Term.compactChars ++ rest) terms rest := by
  induction terms with
  | nil => exact .nil hrest
  | cons t terms ih =>
      obtain ⟨hfirst, hmore⟩ := List.forall_mem_cons.mp h
      rw [List.flatMap_cons, List.append_assoc]
      exact .cons (hfirst _) (ih hmore)

/-- The written form of a term other than a variable is in parentheses, so whatever comes after it is
left alone. -/
theorem readAtom_compact (h : t.WellFormed) (rest : List Char) :
    Finds readAtom (t.compactChars ++ rest) t rest := by
  induction h generalizing rest with
  | var hletter =>
      rw [Term.compactChars_var hletter]
      exact readAtom_letter hletter
  | @abs params body hne hp _ ih =>
      have hbody : Finds readExpression (body.compactChars ++ ')' :: rest) body (')' :: rest) :=
        readExpression_atom (ih _) (.nil readAtom_closing)
      have habs := readExpression_atom (readAtom_abstraction hne hp hbody) (.nil readAtom_closing)
      rw [Term.compactChars_abs hp]
      simpa using readAtom_parentheses habs
  | @app terms hlength _ ih =>
      rcases terms with _ | ⟨first, _ | ⟨second, terms⟩⟩
      · simp at hlength
      · simp at hlength
      · obtain ⟨hfirst, hmore⟩ := List.forall_mem_cons.mp ih
        have hclosing : readAtom (')' :: rest) = none := readAtom_closing
        have hrest := collects_compact hmore hclosing
        have happ := readExpression_application (hfirst _) hrest
        rw [Term.compactChars_app]
        simpa using readAtom_parentheses happ

theorem readExpression_compact (h : t.WellFormed) : Finds readExpression t.compact.toList t [] := by
  have hatom := readAtom_compact h []
  rw [List.append_nil] at hatom
  rw [Term.toList_compact]
  exact readExpression_atom hatom (.nil (by rw [readAtom]))

/-! ## What is read is well formed -/

theorem readParameters_letters {r : Reading (List Char) cs} (h : readParameters cs = some r) :
    r.value ≠ [] ∧ ∀ c ∈ r.value, isLetter c = true := by
  unfold readParameters at h
  split at h
  · cases h
  · next hne =>
    split at h
    · cases h
      exact ⟨hne, List.all_eq_true.mp List.all_takeWhile⟩
    · cases h

mutual

theorem readAtom_wellFormed : (cs : List Char) → ∀ r, readAtom cs = some r → r.value.WellFormed
  | [], r, h => by simp [readAtom] at h
  | c :: cs, r, h => by
      rw [readAtom] at h
      split at h
      · next hletter =>
        cases h
        exact .var hletter
      · split at h
        · split at h
          · next names body _ hparams =>
            split at h
            · next term rest _ hbody =>
              cases h
              obtain ⟨hne, hn⟩ := readParameters_letters hparams
              exact .abs hne hn (readExpression_wellFormed body _ hbody)
            · cases h
          · cases h
        · split at h
          · split at h
            · next hinner =>
              cases h
              exact readExpression_wellFormed cs _ hinner
            · cases h
          · cases h
termination_by cs => (cs.length, 0)

theorem readExpression_wellFormed (cs : List Char) (r : Reading Term cs)
    (h : readExpression cs = some r) : r.value.WellFormed := by
  rw [readExpression] at h
  split at h
  · next first rest _ hfirst =>
    have hwf := readAtom_wellFormed cs _ hfirst
    have hmore := readAtoms_wellFormed rest
    split at h
    · cases h
      exact hwf
    · next terms left hle hnil hatoms =>
      cases h
      rw [hatoms] at hmore
      have hlength : 0 < terms.length := List.length_pos_iff.mpr hnil
      exact .app (Nat.succ_le_succ hlength) (List.forall_mem_cons.mpr ⟨hwf, hmore⟩)
  · cases h
termination_by (cs.length, 2)

theorem readAtoms_wellFormed (cs : List Char) : ∀ t ∈ (readAtoms cs).1, t.WellFormed := by
  rw [readAtoms]
  split
  · next term rest _ hterm =>
    exact List.forall_mem_cons.mpr ⟨readAtom_wellFormed cs _ hterm, readAtoms_wellFormed rest⟩
  · simp
termination_by (cs.length, 1)

end

/-! ## Parsing written forms -/

variable {input : String} {config : Config}

theorem parse_of_finds (h : Finds readExpression input.toList t []) :
    (do (← sample).parse input config) = .ok (some ⟨.term t, .load 0 input, 0, input.length⟩) := by
  obtain ⟨names, hs⟩ := sample_eq
  obtain ⟨_, hread⟩ := h.eq_some
  rw [hs]
  change Sample.parse _ input config = _
  rw [sample_parse, hread]
  simp

theorem finds_of_parse {x : Spanned Piece} (h : (do (← sample).parse input config) = .ok (some x)) :
    ∃ r, readExpression input.toList = some r ∧ x.value = .term r.value := by
  obtain ⟨names, hs⟩ := sample_eq
  rw [hs] at h
  change Sample.parse _ input config = _ at h
  rw [sample_parse] at h
  cases hread : readExpression input.toList with
  | none => simp [hread] at h
  | some r =>
      simp only [hread, Option.map_some, Except.ok.injEq, Option.some.injEq] at h
      exact ⟨r, rfl, h ▸ rfl⟩

theorem parseTerm_of_parse {text : Buffer} {start stop : Nat}
    (h : (do (← sample).parse input config) = .ok (some ⟨.term t, text, start, stop⟩)) :
    parseTerm input config = .ok (some (t, stop)) := by
  have hparse : parseTerm input config = (do (← sample).parse input config) >>= fun parsed =>
      pure (parsed.bind fun x => x.value.term?.map fun t => (t, x.span.stop)) := by
    simp [parseTerm]
  rw [hparse, h]
  rfl

/-- Whatever a parse of an input with the sample grammar gives is a well-formed term, and each
well-formed term is what a parse gives of its written form without the blanks between operands. The parse
consumes the whole of it. -/
theorem parse_compact :
    (∀ input config x, (do (← sample).parse input config) = .ok (some x) →
      ∃ t : Term, x.value = .term t ∧ t.WellFormed ∧
        parseTerm input config = .ok (some (t, x.span.stop))) ∧
    ∀ t : Term, t.WellFormed → ∀ config,
      (do (← sample).parse t.compact config) =
        .ok (some ⟨.term t, .load 0 t.compact, 0, t.compact.length⟩) ∧
      parseTerm t.compact config = .ok (some (t, t.compact.length)) := by
  constructor
  · intro input config x h
    obtain ⟨r, hr, hx⟩ := finds_of_parse h
    obtain ⟨value, text, start, stop⟩ := x
    subst hx
    exact ⟨r.value, rfl, readExpression_wellFormed _ r hr, parseTerm_of_parse h⟩
  · intro t ht config
    have hparse : (do (← sample).parse t.compact config) = .ok (some _) :=
      parse_of_finds (readExpression_compact ht)
    exact ⟨hparse, parseTerm_of_parse hparse⟩

/-- An application in the body of an abstraction, and the abstraction in an application. -/
theorem parse_compact_application :
    let t : Term := .app [.abs ['x', 'y'] (.app [.var 'x', .var 'y']), .var 'z']
    t.display = "((λxy.(x y)) z)" ∧ t.compact = "((λxy.(xy))z)" ∧ t.WellFormed ∧
      ∀ config, parseTerm "((λxy.(xy))z)" config = .ok (some (t, 13)) ∧
        ∃ x, (do (← sample).parse "((λxy.(xy))z)" config) = .ok (some x) ∧
          ∃ t' : Term, x.value = .term t' ∧ t'.WellFormed := by
  intro t
  have hvar : ∀ c, isLetter c = true → (Term.var c).WellFormed := fun _ => .var
  have hpair : ∀ {t t' : Term}, t.WellFormed → t'.WellFormed → (Term.app [t, t']).WellFormed :=
    fun h h' => .app (Nat.le_refl 2) (List.forall_mem_cons.mpr ⟨h, List.forall_mem_singleton.mpr h'⟩)
  have hwf : t.WellFormed := by
    have hbody := hpair (hvar 'x' (by decide)) (hvar 'y' (by decide))
    have hparams : ['x', 'y'].all isLetter = true := by decide
    exact hpair (.abs (by decide) (List.all_eq_true.mp hparams) hbody) (hvar 'z' (by decide))
  have hcompact : t.compact = "((λxy.(xy))z)" := by decide +kernel
  refine ⟨by decide +kernel, hcompact, hwf, fun config => ?_⟩
  obtain ⟨hparse, hterm⟩ := parse_compact.2 t hwf config
  rw [hcompact] at hparse hterm
  obtain ⟨t', hx, hwf', -⟩ := parse_compact.1 _ config _ hparse
  exact ⟨hterm, _, hparse, t', hx, hwf'⟩

end Lambda

end Packrat
