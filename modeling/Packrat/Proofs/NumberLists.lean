import Packrat.Proofs.EntryPoints
import Packrat.Proofs.Reading
import Packrat.Sample.IntList

/-!
# Lists of numbers

The texts that are lists, the value of a list, and a reader that goes over the characters once. Parsing with
the sample grammar comes to what is read, so it accepts exactly the inputs that start with a list, consumes
that list and shows its value (`parseList_language`).
-/

namespace Packrat

/-! ## Numerals -/

namespace Decimal

/-- A run of digits, at least one. -/
def Numeral (ds : List Char) : Prop := ds ≠ [] ∧ ∀ c ∈ ds, isDigit c = true

instance {ds : List Char} : Decidable (Numeral ds) :=
  decidable_of_iff (ds ≠ [] ∧ ds.all isDigit = true) (by simp [Numeral])

/-- What a run of digits is worth. -/
def value (ds : List Char) : Nat := Nat.ofDigitChars 10 ds 0

variable {bound v : Nat} {c : Char} {cs ds : List Char}

theorem le_ofDigitChars : v ≤ Nat.ofDigitChars 10 ds v := by
  induction ds generalizing v with
  | nil => exact Nat.le_refl v
  | cons c ds ih =>
      have hrest := @ih (10 * v + (c.toNat - '0'.toNat))
      rw [Nat.ofDigitChars_cons]
      omega

/-- The digits after a prefix that is too large only make it larger. -/
theorem extend_eq (hd : ∀ c ∈ ds, isDigit c = true) (hv : v ≤ bound) :
    extend bound v ds =
      if Nat.ofDigitChars 10 ds v ≤ bound then .ok (Nat.ofDigitChars 10 ds v) else .error .tooLarge := by
  induction ds generalizing v with
  | nil => simp [extend, hv]
  | cons c ds ih =>
      obtain ⟨hc, hd⟩ := List.forall_mem_cons.mp hd
      have hworth : v * 10 + worth c = 10 * v + (c.toNat - '0'.toNat) := by
        rw [Nat.mul_comm]
        rfl
      simp only [extend, hc, if_true, Nat.ofDigitChars_cons, ← hworth]
      by_cases hnext : v * 10 + worth c ≤ bound
      · rw [if_pos hnext, ih hd hnext]
      · have hrest := @le_ofDigitChars (v * 10 + worth c) ds
        rw [if_neg hnext, if_neg (by omega)]

theorem read_numeral (h : Numeral ds) :
    read bound ds = if value ds ≤ bound then .ok (value ds) else .error .tooLarge := by
  obtain ⟨hne, hd⟩ := h
  have hplus : isDigit '+' = false := by decide
  unfold read
  split
  · exact absurd rfl hne
  · simp [hplus] at hd
  · simp [hplus] at hd
  · exact extend_eq hd (Nat.zero_le _)

namespace Numeral

theorem takeWhile (hne : cs.takeWhile isDigit ≠ []) : Numeral (cs.takeWhile isDigit) :=
  ⟨hne, List.all_eq_true.mp List.all_takeWhile⟩

/-- A numeral is read up to a character that is not a digit. -/
theorem split (h : Numeral ds) (hc : isDigit c = false) :
    (ds ++ c :: cs).takeWhile isDigit = ds ∧ (ds ++ c :: cs).dropWhile isDigit = c :: cs := by
  simp [List.takeWhile_append_of_pos h.2, List.dropWhile_append_of_pos h.2, hc]

theorem toDigits (n : Nat) : Numeral (Nat.toDigits 10 n) :=
  ⟨Nat.toDigits_ne_nil, fun _ hc => Nat.isDigit_of_mem_toDigits (by decide) (by decide) hc⟩

end Numeral

end Decimal

namespace IntList

open Decimal (Numeral isDigit)

/-! ## Lists and their values -/

/-- The characters are a list of the numerals: one or more of them in brackets, with a comma and a blank
between any two. -/
structure Writes (ns : List (List Char)) (cs : List Char) : Prop where
  nonempty : ns ≠ []
  numerals : ∀ ds ∈ ns, Numeral ds
  eq : cs = '[' :: ([',', ' '].intercalate ns ++ [']'])

/-- The characters are a list. -/
def Language (cs : List Char) : Prop := ∃ ns, Writes ns cs

/-- How a list of numbers is shown. -/
def shown {α : Type} [ToString α] (xs : List α) : String :=
  "[" ++ ", ".intercalate (xs.map toString) ++ "]"

/-- How the value of a list of numerals is shown: as the list of what they are worth, if each of that is
a number of 64 bits. -/
def rendering (ns : List (List Char)) : String :=
  if ∀ ds ∈ ns, Decimal.value ds < 2 ^ 64 then shown (ns.map Decimal.value)
  else "invalid integer: number too large to fit in target type"

def numbersOf (ns : List (List Char)) : Piece := .numbers (ns.map (Decimal.read Decimal.max64))

variable {c : Char} {cs ds rest : List Char} {ns : List (List Char)}

theorem read_max64 (h : Numeral ds) : Decimal.read Decimal.max64 ds =
    if Decimal.value ds < 2 ^ 64 then .ok (Decimal.value ds) else .error .tooLarge := by
  have hbound : Decimal.value ds ≤ Decimal.max64 ↔ Decimal.value ds < 2 ^ 64 := by
    simp only [Decimal.max64]
    omega
  simp only [Decimal.read_numeral h, hbound]

theorem mapM_read_max64 (h : ∀ ds ∈ ns, Numeral ds) : (ns.map (Decimal.read Decimal.max64)).mapM id =
    if ∀ ds ∈ ns, Decimal.value ds < 2 ^ 64 then .ok (ns.map Decimal.value) else .error .tooLarge := by
  split
  · next hfit =>
    rw [mapM_eq_ok_iff, List.forall₂_map_left_iff, List.forall₂_map_right_iff, List.forall₂_same]
    intro ds hds
    rw [id, read_max64 (h ds hds), if_pos (hfit ds hds)]
  · next hfit =>
    push Not at hfit
    obtain ⟨big, hmem, hbig⟩ := hfit
    have herr : Decimal.read Decimal.max64 big = .error .tooLarge := by
      rw [read_max64 (h big hmem), if_neg (Nat.not_lt.mpr hbig)]
    refine mapM_eq_error (fun x hx => ?_) ⟨_, List.mem_map_of_mem hmem, herr⟩
    obtain ⟨ds, hds, rfl⟩ := List.mem_map.mp hx
    rw [id, read_max64 (h ds hds)]
    split
    · exact .inl ⟨_, rfl⟩
    · exact .inr rfl

theorem render_numbersOf (h : ∀ ds ∈ ns, Numeral ds) : (numbersOf ns).render = rendering ns := by
  simp only [numbersOf, Piece.render, Piece.values, mapM_read_max64 h, rendering]
  by_cases hfit : ∀ ds ∈ ns, Decimal.value ds < 2 ^ 64
  · simp only [if_pos hfit, shown]
  · simp only [if_neg hfit]
    rfl

/-! ## Reading a list -/

/-- Reads numerals, each after a comma and a blank, until there is none. -/
def readMore (cs : List Char) : List (List Char) × List Char :=
  match cs with
  | ',' :: ' ' :: cs' =>
    if cs'.takeWhile isDigit = [] then ([], cs)
    else
      let (ns, rest) := readMore (cs'.dropWhile isDigit)
      (cs'.takeWhile isDigit :: ns, rest)
  | _ => ([], cs)
termination_by cs.length
decreasing_by
  have hle := (List.dropWhile_suffix isDigit (l := cs')).length_le
  simp only [List.length_cons]
  omega

/-- Reads a list: its numerals, and what is left after it. -/
def readList : List Char → Option (List (List Char) × List Char)
  | '[' :: cs =>
    if cs.takeWhile isDigit = [] then none
    else
      match readMore (cs.dropWhile isDigit) with
      | (ns, ']' :: rest) => some (cs.takeWhile isDigit :: ns, rest)
      | _ => none
  | _ => none

/-- The numerals after the first one, as they are written. -/
def continuation (ns : List (List Char)) : List Char := ns.flatMap fun ds => ',' :: ' ' :: ds

theorem intercalate_cons : [',', ' '].intercalate (ds :: ns) = ds ++ continuation ns := by
  induction ns generalizing ds with
  | nil => simp [continuation]
  | cons d ns ih => simp [continuation, List.intercalate_cons_cons, ih]

theorem readMore_sound (cs : List Char) : (∀ ds ∈ (readMore cs).1, Numeral ds) ∧
    cs = continuation (readMore cs).1 ++ (readMore cs).2 := by
  fun_induction readMore cs with
  | case1 cs hnil => simp [continuation]
  | case2 cs hne ns rest hmore ih =>
      rw [hmore] at ih
      obtain ⟨hnumerals, heq⟩ := ih
      refine ⟨List.forall_mem_cons.mpr ⟨.takeWhile hne, hnumerals⟩, ?_⟩
      have hsplit : cs.takeWhile isDigit ++ cs.dropWhile isDigit = cs := List.takeWhile_append_dropWhile
      rw [heq] at hsplit
      simpa [continuation] using hsplit.symm
  | case3 cs hnot => simp [continuation]

/-- What follows a numeral in a list is a comma or the closing bracket. -/
theorem continuation_eq_cons : ∃ c tail, isDigit c = false ∧
    continuation ns ++ ']' :: rest = c :: tail := by
  cases ns with
  | nil => exact ⟨']', rest, by decide, rfl⟩
  | cons ds ns => exact ⟨',', _, by decide, rfl⟩

theorem Numeral.split_continuation (h : Numeral ds) :
    (ds ++ (continuation ns ++ ']' :: rest)).takeWhile isDigit = ds ∧
    (ds ++ (continuation ns ++ ']' :: rest)).dropWhile isDigit = continuation ns ++ ']' :: rest := by
  obtain ⟨c, tail, hc, heq⟩ := @continuation_eq_cons rest ns
  rw [heq]
  exact h.split hc

theorem readMore_complete (h : ∀ ds ∈ ns, Numeral ds) :
    readMore (continuation ns ++ ']' :: rest) = (ns, ']' :: rest) := by
  induction ns with
  | nil => simp [continuation, readMore]
  | cons ds ns ih =>
      obtain ⟨hd, hns⟩ := List.forall_mem_cons.mp h
      obtain ⟨htake, hdrop⟩ := @Numeral.split_continuation ds rest ns hd
      have hcons : continuation (ds :: ns) ++ ']' :: rest =
          ',' :: ' ' :: (ds ++ (continuation ns ++ ']' :: rest)) := by simp [continuation]
      rw [hcons, readMore, htake, hdrop, if_neg hd.1, ih hns]

theorem readList_complete {p : List Char} (h : Writes ns p) : readList (p ++ rest) = some (ns, rest) := by
  obtain ⟨hne, hnumerals, rfl⟩ := h
  cases ns with
  | nil => exact absurd rfl hne
  | cons ds ns =>
      obtain ⟨hd, hns⟩ := List.forall_mem_cons.mp hnumerals
      obtain ⟨htake, hdrop⟩ := @Numeral.split_continuation ds rest ns hd
      have hcons : '[' :: ([',', ' '].intercalate (ds :: ns) ++ [']']) ++ rest =
          '[' :: (ds ++ (continuation ns ++ ']' :: rest)) := by simp [intercalate_cons]
      simp [hcons, readList, htake, hdrop, hd.1, readMore_complete hns]

theorem readList_sound (h : readList cs = some (ns, rest)) : ∃ p, Writes ns p ∧ cs = p ++ rest := by
  unfold readList at h
  split at h
  · next cs =>
    split at h
    · cases h
    · next hne =>
      obtain ⟨hnumerals, heq⟩ := readMore_sound (cs.dropWhile isDigit)
      split at h
      · next more left hmore =>
        cases h
        rw [hmore] at hnumerals heq
        have hall := List.forall_mem_cons.mpr ⟨Numeral.takeWhile hne, hnumerals⟩
        refine ⟨_, ⟨List.cons_ne_nil _ _, hall, rfl⟩, ?_⟩
        have hsplit : cs.takeWhile isDigit ++ cs.dropWhile isDigit = cs := List.takeWhile_append_dropWhile
        rw [heq] at hsplit
        simpa [intercalate_cons] using hsplit.symm
      · cases h
  · cases h

theorem readList_eq_some_iff : readList cs = some (ns, rest) ↔ ∃ p, Writes ns p ∧ cs = p ++ rest := by
  constructor
  · exact readList_sound
  · rintro ⟨p, hp, rfl⟩
    exact readList_complete hp

/-- Whether the characters start with a list is decided by reading one. -/
theorem exists_prefix_iff : (∃ p, Language p ∧ p <+: cs) ↔ (readList cs).isSome = true := by
  rw [Option.isSome_iff_exists]
  constructor
  · rintro ⟨p, ⟨ns, hp⟩, rest, hrest⟩
    exact ⟨(ns, rest), readList_eq_some_iff.mpr ⟨p, hp, hrest.symm⟩⟩
  · rintro ⟨x, hread⟩
    obtain ⟨p, hp, heq⟩ := readList_eq_some_iff.mp hread
    exact ⟨p, ⟨x.1, hp⟩, x.2, heq.symm⟩

/-! ## The parsers of the grammar -/

def numeral : Parser Piece := .characters 2 Piece.ofDigits

def separated : Parser Piece := .pair 4 (.silent 3 .unit) numeral "right" fun _ v => v

def items : Parser Piece := .pair 6 numeral (.star 5 separated Piece.collect) "items" Piece.join

def brackets : Parser Piece :=
  .pair 10 (.pair 8 (.silent 7 .unit) items "right" fun _ v => v) (.silent 9 .unit) "left" fun v _ => v

theorem root_eq : root = brackets := rfl

variable {text : Buffer}

theorem numeral_reads (h : cs.takeWhile isDigit ≠ []) : Reads workspace.grammar text numeral cs
    (Piece.ofDigits (cs.takeWhile isDigit)) (cs.dropWhile isDigit) := .characters rfl rfl h

theorem numeral_fails (h : cs.takeWhile isDigit = []) : Fails workspace.grammar text numeral cs :=
  .characters rfl rfl h

theorem separator_reads :
    Reads workspace.grammar text (.silent 3 .unit) (',' :: ' ' :: cs) Piece.unit cs := by
  have hbody : workspace.grammar.body 3 = .literal [',', ' '] := rfl
  exact .word hbody

/-- The repetition takes what is read by hand; it gives back a comma and a blank without a numeral. -/
theorem more_read {r : RuleId} {collect : List Piece → Piece} (cs : List Char) :
    Reads workspace.grammar text (.star r separated collect) cs
      (collect ((readMore cs).1.map Piece.ofDigits)) (readMore cs).2 := by
  fun_induction readMore cs generalizing collect with
  | case1 cs hnil => exact .star_stop (.pair_second separator_reads (numeral_fails hnil))
  | case2 cs hne ns rest hmore ih =>
      rw [hmore] at ih
      exact .star_more (.pair separator_reads (numeral_reads hne)) ih
  | case3 cs hnot =>
      have hword : ¬ [',', ' '] <+: cs := by
        rintro ⟨tail, rfl⟩
        exact hnot tail rfl
      exact .star_stop (.pair_first (.word rfl hword))

theorem collect_ofDigits : Piece.collect (ns.map Piece.ofDigits) = numbersOf ns := by
  simp [Piece.collect, numbersOf, List.flatMap_map, Piece.ofDigits, Piece.values, ← List.map_eq_flatMap]

theorem items_read (h : cs.takeWhile isDigit ≠ []) : Reads workspace.grammar text items cs
    (numbersOf (cs.takeWhile isDigit :: (readMore (cs.dropWhile isDigit)).1))
    (readMore (cs.dropWhile isDigit)).2 := by
  have hitems : Reads workspace.grammar text items cs _ _ := .pair (numeral_reads h) (more_read _)
  rwa [collect_ofDigits] at hitems

/-- Wherever `cs` is left of the text, the parser comes to what was read by hand. -/
theorem list_implemented (cs : List Char) : (∃ ns rest, readList cs = some (ns, rest) ∧
      Reads workspace.grammar text root cs (numbersOf ns) rest) ∨
    (readList cs = none ∧ Fails workspace.grammar text root cs) := by
  rw [root_eq]
  fun_cases readList cs with
  | case1 cs hnil =>
      have hopening : Reads workspace.grammar text (.silent 7 .unit) ('[' :: cs) Piece.unit cs :=
        .literal rfl
      exact .inr ⟨rfl, .pair_first (.pair_second hopening (.pair_first (numeral_fails hnil)))⟩
  | case2 cs hne ns rest hmore =>
      have hitems : Reads workspace.grammar text items cs _ _ := items_read hne
      rw [hmore] at hitems
      exact .inl ⟨_, _, rfl, .pair (.pair (.literal rfl) hitems) (.literal rfl)⟩
  | case3 cs hne hnot =>
      have hitems : Reads workspace.grammar text items cs _ _ := items_read hne
      refine .inr ⟨rfl, .pair_second (.pair (.literal rfl) hitems) (.literal (c := ']') rfl ?_)⟩
      intro c hc he
      obtain ⟨tail, htail⟩ := List.head?_eq_some_iff.mp hc
      exact hnot _ tail (Prod.ext rfl (he ▸ htail))
  | case4 cs hnot =>
      refine .inr ⟨rfl, .pair_first (.pair_first (.literal (c := '[') rfl ?_))⟩
      intro c hc he
      obtain ⟨tail, htail⟩ := List.head?_eq_some_iff.mp hc
      exact hnot tail (he ▸ htail)

/-! ## The grammar -/

theorem assembly_ensures : Ensures assembly .empty
    (fun made w => ∃ known, Assembled w known ∧ made.1 ∈ known) fun _ _ => True := by
  have h := Assembled.empty (V := Piece)
  unfold assembly
  refine (Ensures.intro fun _ _ hok => h.characters hok).bind fun int _ h => ?_
  refine h.literalParser_ensures.bind fun comma _ h => ?_
  refine (Ensures.intro fun _ _ hok => h.pair (by simp) (by simp) hok).bind fun separated _ h => ?_
  refine (Ensures.intro fun _ _ hok => h.star (by simp) hok).bind fun more _ h => ?_
  refine (Ensures.intro fun _ _ hok => h.pair (by simp) (by simp) hok).bind fun items _ h => ?_
  refine h.literalParser_ensures.bind fun opening _ h => ?_
  refine (Ensures.intro fun _ _ hok => h.pair (by simp) (by simp) hok).bind fun inner _ h => ?_
  refine (h.closedBy_ensures List.mem_cons_self).bind ?_
  rintro list _ ⟨closing, h⟩
  exact .pure ⟨_, h, by simp⟩

theorem assembled : ∃ known, Assembled workspace known ∧ root ∈ known := by
  have hok : Ensures assembly .empty (fun _ _ => True) fun _ _ => False := by decide +kernel
  obtain ⟨made, w, hok, -⟩ := hok.exists_ok
  have hw : workspace = w := by simp only [workspace, hok]
  have hroot : root = made.1 := by simp only [root, hok]
  rw [hw, hroot]
  exact assembly_ensures.of_ok hok

theorem sample_eq : ∃ names, sample = .ok ⟨"int-list", workspace, root, names, Piece.render⟩ := ⟨_, rfl⟩

/-! ## Parsing an input -/

variable {input : String} {config : Config}

theorem parseList_of_yields {y : Yield Piece} (hy : Yields workspace.grammar (.load 0 input) root 0 y) :
    parseList input config = .ok (y.map fun x => ⟨x.1.render, .load 0 input, 0, x.2⟩) := by
  obtain ⟨known, assembled, hroot⟩ := IntList.assembled
  obtain ⟨names, hs⟩ := sample_eq
  have hg := assembled.consistent.aligned_slots
  have hp := assembled.consistent.aligned hroot
  have hparse : Sample.parse ⟨"int-list", workspace, root, names, Piece.render⟩ input config = .ok _ :=
    Sample.parse_of_yields hg hp assembled.consistent.sound hy config rfl rfl
  unfold parseList
  rw [hs]
  change (Sample.parse _ input config >>= _) = _
  rw [hparse]
  cases y with
  | some x => rfl
  | none => rfl

theorem parseList_eq (input : String) (config : Config) : parseList input config =
    .ok ((readList input.toList).map fun (ns, rest) =>
      ⟨rendering ns, .load 0 input, 0, input.length - rest.length⟩) := by
  rcases @list_implemented (.load 0 input) input.toList with
    ⟨ns, rest, hread, hreads⟩ | ⟨hread, hfails⟩
  · obtain ⟨e, he, hy⟩ := hreads 0 .load
    obtain ⟨p, hp, -⟩ := readList_sound hread
    rw [parseList_of_yields hy, hread]
    have hstop : e = input.length - rest.length := he.position_eq
    simp [render_numbersOf hp.numerals, hstop]
  · rw [parseList_of_yields (hfails 0 .load), hread]
    rfl

theorem parseList_of_writes {p : List Char} (h : Writes ns p) (hp : p <+: input.toList) :
    parseList input config = .ok (some ⟨rendering ns, .load 0 input, 0, p.length⟩) := by
  obtain ⟨rest, hrest⟩ := hp
  have hread : readList input.toList = some (ns, rest) := readList_eq_some_iff.mpr ⟨p, h, hrest.symm⟩
  have hlength : input.length - rest.length = p.length := by
    rw [← String.length_toList, ← hrest, List.length_append, Nat.add_sub_cancel]
  rw [parseList_eq, hread, ← hlength]
  rfl

theorem parseList_of_not_language (h : ¬ ∃ p, Language p ∧ p <+: input.toList) :
    parseList input config = .ok none := by
  rw [exists_prefix_iff, Option.not_isSome_iff_eq_none] at h
  rw [parseList_eq, h]
  rfl

/-- A text does not start with two different lists. -/
theorem Language.prefix_unique {p q : List Char} (hp : Language p) (hq : Language q) (hpc : p <+: cs)
    (hqc : q <+: cs) : p = q := by
  obtain ⟨ns, hp⟩ := hp
  obtain ⟨ns', hq⟩ := hq
  obtain ⟨rest, hrest⟩ := hpc
  obtain ⟨rest', hrest'⟩ := hqc
  have hread : readList cs = some (ns, rest) := readList_eq_some_iff.mpr ⟨p, hp, hrest.symm⟩
  have hread' : readList cs = some (ns', rest') := readList_eq_some_iff.mpr ⟨q, hq, hrest'.symm⟩
  cases hread.symm.trans hread'
  exact List.append_cancel_right (hrest.trans hrest'.symm)

/-! ## Lists as they are shown -/

/-- The digits of a number of 64 bits. -/
def digits (u : UInt64) : List Char := (toString u).toList

theorem digits_eq (u : UInt64) : digits u = Nat.toDigits 10 u.toNat := Nat.toList_repr

theorem value_digits (u : UInt64) : Decimal.value (digits u) = u.toNat := by
  rw [digits_eq, Decimal.value, Nat.ofDigitChars_ten_toDigits]

theorem toList_shown (us : List UInt64) :
    (shown us).toList = '[' :: ([',', ' '].intercalate (us.map digits) ++ [']']) := by
  have hdigits : String.toList ∘ toString = digits := rfl
  simp [shown, String.toList_intercalate, hdigits]

theorem writes_shown {us : List UInt64} (h : us ≠ []) : Writes (us.map digits) (shown us).toList where
  nonempty := by simpa using h
  numerals := by
    intro ds hds
    obtain ⟨u, -, rfl⟩ := List.mem_map.mp hds
    rw [digits_eq]
    exact .toDigits u.toNat
  eq := toList_shown us

theorem rendering_digits (us : List UInt64) : rendering (us.map digits) = shown us := by
  have hfit : ∀ ds ∈ us.map digits, Decimal.value ds < 2 ^ 64 := by
    intro ds hds
    obtain ⟨u, -, rfl⟩ := List.mem_map.mp hds
    rw [value_digits]
    exact u.toNat_lt
  have hvalues : (us.map digits).map Decimal.value = us.map UInt64.toNat := by
    simp [Function.comp_def, value_digits]
  rw [rendering, if_pos hfit, hvalues]
  simp only [shown, List.map_map]
  rfl

/-- A parse of an input succeeds if and only if the input starts with a list, and other inputs are rejected.
Only one prefix is a list; a parse consumes exactly that and shows its value. Any list of numbers of 64 bits
is read back from how it is shown. -/
theorem parseList_language :
    (∀ input config,
      ((∃ x, parseList input config = .ok (some x)) ↔ ∃ p, Language p ∧ p <+: input.toList) ∧
      ((¬ ∃ p, Language p ∧ p <+: input.toList) → parseList input config = .ok none) ∧
      (∀ p q, Language p → Language q → p <+: input.toList → q <+: input.toList → p = q) ∧
      ∀ ns p, Writes ns p → p <+: input.toList →
        parseList input config = .ok (some ⟨rendering ns, .load 0 input, 0, p.length⟩)) ∧
    ∀ us : List UInt64, us ≠ [] → ∀ config, parseList (shown us) config =
      .ok (some ⟨shown us, .load 0 (shown us), 0, (shown us).length⟩) := by
  constructor
  · intro input config
    refine ⟨⟨?_, ?_⟩, parseList_of_not_language, ?_, fun ns p => parseList_of_writes⟩
    · rintro ⟨x, hx⟩
      by_contra hnot
      cases hx.symm.trans (parseList_of_not_language hnot)
    · rintro ⟨p, ⟨ns, hp⟩, hprefix⟩
      exact ⟨_, parseList_of_writes hp hprefix⟩
    · exact fun p q hp hq => hp.prefix_unique hq
  · intro us hne config
    have hparse : parseList (shown us) config = .ok (some _) :=
      parseList_of_writes (writes_shown hne) (List.prefix_refl _)
    rwa [rendering_digits, String.length_toList] at hparse

/-- Leading zeros and the largest number, a number that is too large, and a comma without a number. -/
theorem parseList_language_bounds :
    Writes [['0', '0', '7'], "18446744073709551615".toList] "[007, 18446744073709551615]".toList ∧
    Writes ["18446744073709551616".toList] "[18446744073709551616]".toList ∧
    (¬ ∃ p, Language p ∧ p <+: "[1, ]".toList) ∧ ∀ config,
      parseList "[007, 18446744073709551615], 1" config = .ok (some ⟨"[7, 18446744073709551615]",
        .load 0 "[007, 18446744073709551615], 1", 0, 27⟩) ∧
      parseList "[18446744073709551616]" config = .ok (some
        ⟨"invalid integer: number too large to fit in target type",
          .load 0 "[18446744073709551616]", 0, 22⟩) ∧
      parseList "[1, ]" config = .ok none := by
  have hlist : Writes [['0', '0', '7'], "18446744073709551615".toList]
      "[007, 18446744073709551615]".toList := ⟨by decide, by decide +kernel, by decide +kernel⟩
  have hlarge : Writes ["18446744073709551616".toList] "[18446744073709551616]".toList :=
    ⟨by decide, by decide +kernel, by decide +kernel⟩
  have hvalue : rendering [['0', '0', '7'], "18446744073709551615".toList] =
    "[7, 18446744073709551615]" := by decide +kernel
  have hvalue' : rendering ["18446744073709551616".toList] =
    "invalid integer: number too large to fit in target type" := by decide +kernel
  have hnot : ¬ ∃ p, Language p ∧ p <+: "[1, ]".toList := by
    rw [exists_prefix_iff, Bool.not_eq_true]
    cbv
  refine ⟨hlist, hlarge, hnot, fun config => ?_⟩
  obtain ⟨-, -, -, hparse⟩ := parseList_language.1 "[007, 18446744073709551615], 1" config
  obtain ⟨-, -, -, hparse'⟩ := parseList_language.1 "[18446744073709551616]" config
  obtain ⟨-, hrejected, -, -⟩ := parseList_language.1 "[1, ]" config
  have h := hparse _ _ hlist (by decide +kernel)
  have h' := hparse' _ _ hlarge (List.prefix_refl _)
  rw [hvalue] at h
  rw [hvalue'] at h'
  exact ⟨h, h', hrejected hnot⟩

end IntList

end Packrat
