import Mathlib.Data.Finset.Card
import Mathlib.Data.List.TakeWhile
import Mathlib.Order.Bounds.Basic
import Mathlib.Order.Interval.Finset.Nat
import Packrat.Text.Lines

/-!
# Line starts, position by position

The scan for line breaks steps over two characters at once where a carriage return and a line feed stand
together. What it finds are the positions that start a line by a rule about single positions
(`mem_lineBreaks`), so lines and columns can be read off the text (`Buffer.lineColumn_exact`).
-/

namespace Packrat

/-! ## The rule -/

/-- A line starts after each line feed, and after each carriage return that no line feed follows. -/
def StartsLine (cs : List Char) (p : Nat) : Prop :=
  1 ≤ p ∧ p ≤ cs.length ∧ (cs[p - 1]? = some '\n' ∨ cs[p - 1]? = some '\r' ∧ cs[p]? ≠ some '\n')

instance {cs : List Char} : DecidablePred (StartsLine cs) :=
  fun _ => inferInstanceAs (Decidable (_ ∧ _ ∧ _))

section Scan

variable {cs rest : List Char} {c : Char} {p position : Nat}

theorem not_startsLine_nil : ¬ StartsLine [] p := fun ⟨hp, hle, _⟩ =>
  absurd (Nat.le_trans hp hle) (Nat.not_succ_le_zero 0)

theorem startsLine_one_cons :
    StartsLine (c :: rest) 1 ↔ c = '\n' ∨ c = '\r' ∧ rest[0]? ≠ some '\n' := by
  simp [StartsLine]

theorem startsLine_succ_cons (hp : 0 < p) : StartsLine (c :: rest) (p + 1) ↔ StartsLine rest p := by
  obtain ⟨p, rfl⟩ : ∃ k, p = k + 1 := ⟨p - 1, by omega⟩
  simp [StartsLine]

/-- A carriage return before a line feed starts no line, so the two may be scanned one by one. -/
theorem lineBreaks_cons : lineBreaks position (c :: rest) =
    if StartsLine (c :: rest) 1 then (position + 1) :: lineBreaks (position + 1) rest
    else lineBreaks (position + 1) rest := by
  simp only [startsLine_one_cons]
  by_cases hpair : c = '\r' ∧ rest[0]? = some '\n'
  · obtain ⟨rfl, hrest⟩ := hpair
    obtain ⟨rest, rfl⟩ : ∃ tail, rest = '\n' :: tail := by
      cases rest with
      | nil => cases hrest
      | cons d tail =>
          cases hrest
          exact ⟨tail, rfl⟩
    simp [lineBreaks]
  · have hscan : lineBreaks position (c :: rest) =
        if c = '\n' ∨ c = '\r' then (position + 1) :: lineBreaks (position + 1) rest
        else lineBreaks (position + 1) rest := by
      rw [lineBreaks]
      rintro tail rfl rfl
      exact hpair ⟨rfl, rfl⟩
    have hrule : (c = '\n' ∨ c = '\r' ∧ rest[0]? ≠ some '\n') ↔ (c = '\n' ∨ c = '\r') := by
      rw [not_and] at hpair
      exact or_congr_right (and_iff_left_of_imp hpair)
    rw [hscan]
    simp only [hrule]

/-- The scan finds the starts of lines, at their distances from where it began. -/
theorem mem_lineBreaks : p ∈ lineBreaks position cs ↔ ∃ i, StartsLine cs i ∧ p = position + i := by
  induction cs generalizing position with
  | nil => simp [lineBreaks, not_startsLine_nil]
  | cons c rest ih =>
      have htail : (∃ i, StartsLine rest i ∧ p = position + 1 + i) ↔
          ∃ i, StartsLine (c :: rest) (i + 1) ∧ 0 < i ∧ p = position + (i + 1) := by
        refine exists_congr fun i => ⟨fun ⟨hi, hp⟩ => ?_, fun ⟨hi, hpos, hp⟩ => ?_⟩
        · exact ⟨(startsLine_succ_cons hi.1).mpr hi, hi.1, by omega⟩
        · exact ⟨(startsLine_succ_cons hpos).mp hi, by omega⟩
      have hwhole : (∃ i, StartsLine (c :: rest) i ∧ p = position + i) ↔
          StartsLine (c :: rest) 1 ∧ p = position + 1 ∨ p ∈ lineBreaks (position + 1) rest := by
        rw [ih, htail]
        constructor
        · rintro ⟨i, hi, hp⟩
          obtain ⟨i, rfl⟩ : ∃ k, i = k + 1 := ⟨i - 1, by have := hi.1; omega⟩
          rcases Nat.eq_zero_or_pos i with rfl | hpos
          · exact .inl ⟨hi, hp⟩
          · exact .inr ⟨i, hi, hpos, hp⟩
        · rintro (⟨hi, hp⟩ | ⟨i, hi, -, hp⟩)
          · exact ⟨1, hi, hp⟩
          · exact ⟨i + 1, hi, hp⟩
      rw [hwhole, lineBreaks_cons]
      split
      · next h => simp [h]
      · next h => simp [h]

theorem lineBreaks_ascending : (lineBreaks position cs).Pairwise (· < ·) := by
  induction cs generalizing position with
  | nil => exact .nil
  | cons c rest ih =>
      rw [lineBreaks_cons]
      split
      · refine .cons (fun p hp => ?_) ih
        obtain ⟨i, hi, rfl⟩ := mem_lineBreaks.mp hp
        have := hi.1
        omega
      · exact ih

end Scan

/-! ## Ascending lists -/

section Ascending

variable {xs : List Nat} {x o i : Nat}

/-- Where the values up to `o` end in a list, the values up to `o` are taken. -/
theorem takeWhile_le_of_cut (hbefore : ∀ y ∈ xs.take i, y ≤ o) (hafter : ∀ y ∈ xs.drop i, o < y) :
    xs.takeWhile (· ≤ o) = xs.take i := by
  have hrest : (xs.drop i).takeWhile (· ≤ o) = [] := by
    cases hd : xs.drop i with
    | nil => rfl
    | cons y ys =>
        have := hafter y (hd ▸ List.mem_cons_self)
        simp [this]
  rw [← List.take_append_drop i xs, List.takeWhile_append_of_pos (by simpa using hbefore), hrest,
    List.append_nil, List.take_append_drop]

theorem mem_takeWhile_le (h : xs.Pairwise (· < ·)) : x ∈ xs.takeWhile (· ≤ o) ↔ x ∈ xs ∧ x ≤ o := by
  induction h with
  | nil => simp
  | @cons a xs ha _ ih =>
      by_cases hao : a ≤ o
      · rw [List.takeWhile_cons_of_pos (by simpa using hao), List.mem_cons, ih, List.mem_cons]
        constructor
        · rintro (rfl | ⟨hx, hxo⟩)
          · exact ⟨.inl rfl, hao⟩
          · exact ⟨.inr hx, hxo⟩
        · rintro ⟨rfl | hx, hxo⟩
          · exact .inl rfl
          · exact .inr ⟨hx, hxo⟩
      · rw [List.takeWhile_cons_of_neg (by simpa using hao)]
        constructor
        · exact fun hx => nomatch hx
        · rintro ⟨hx, hxo⟩
          rcases List.mem_cons.mp hx with rfl | hx
          · exact absurd hxo hao
          · have := ha x hx
            omega

theorem length_takeWhile_le_getElem? (h : xs.Pairwise (· < ·)) (hx : xs[i]? = some x) :
    (xs.takeWhile (· ≤ x)).length = i + 1 := by
  obtain ⟨hi, rfl⟩ := List.getElem?_eq_some_iff.mp hx
  have hsplit : (xs.take i ++ xs[i] :: xs.drop (i + 1)).Pairwise (· < ·) := by
    rwa [List.getElem_cons_drop, List.take_append_drop]
  obtain ⟨-, hrest, hbefore⟩ := List.pairwise_append.mp hsplit
  rw [takeWhile_le_of_cut (i := i + 1)]
  · exact List.length_take_of_le hi
  · intro y hy
    rw [List.take_succ_eq_append_getElem hi, List.mem_append, List.mem_singleton] at hy
    rcases hy with hy | rfl
    · exact Nat.le_of_lt (hbefore y hy _ List.mem_cons_self)
    · exact Nat.le_refl _
  · exact (List.pairwise_cons.mp hrest).1

/-- The value before a cut, if there is one, is where the cut is made in the list with `a` in front. -/
theorem cons_getElem?_of_prefix {ys : List Nat} {a : Nat} (h : ys <+: xs) :
    (a :: xs)[ys.length]? = some (ys.getLastD a) := by
  obtain ⟨zs, rfl⟩ := h
  rw [← List.cons_append, List.getElem?_append_left (by simp), List.getLastD_eq_getLast?,
    ← List.getLast?_cons, List.getLast?_eq_getElem?]
  rfl

theorem le_getLastD (h : xs.Pairwise (· < ·)) (hx : x ∈ xs) : x ≤ xs.getLastD o := by
  have hne := List.ne_nil_of_mem hx
  rw [List.getLastD_eq_getLast?, List.getLast?_eq_some_getLast hne]
  exact (h.imp Nat.le_of_lt).rel_getLast_of_rel_getLast_getLast hx (Nat.le_refl _)

end Ascending

/-! ## Lines and columns -/

namespace Buffer

variable {b : Buffer} {o p i k : Nat}

/-- The positions up to an offset that start a line. -/
def startsWithin (b : Buffer) (o : Nat) : Finset Nat :=
  (Finset.Icc 1 o).filter (StartsLine b.chars.toList)

theorem mem_startsUpTo : p ∈ b.startsUpTo o ↔ StartsLine b.chars.toList p ∧ p ≤ o := by
  rw [startsUpTo, mem_takeWhile_le lineBreaks_ascending, mem_lineBreaks]
  simp

theorem startsUpTo_ascending : (b.startsUpTo o).Pairwise (· < ·) :=
  lineBreaks_ascending.sublist (List.takeWhile_sublist _)

theorem length_startsUpTo : (b.startsUpTo o).length = (b.startsWithin o).card := by
  have hnodup : (b.startsUpTo o).Nodup := startsUpTo_ascending.imp Nat.ne_of_lt
  rw [← List.toFinset_card_of_nodup hnodup]
  congr 1
  ext p
  rw [List.mem_toFinset, mem_startsUpTo, startsWithin, Finset.mem_filter, Finset.mem_Icc, and_comm]
  exact and_congr_left fun h => (and_iff_right h.1).symm

theorem startsUpTo_length : b.startsUpTo b.length = lineBreaks 0 b.chars.toList := by
  rw [startsUpTo, List.takeWhile_eq_self_iff]
  intro p hp
  obtain ⟨i, hi, rfl⟩ := mem_lineBreaks.mp hp
  have := hi.2.1
  simpa [length] using this

theorem place_column_le : (b.place o).column ≤ o := Nat.sub_le _ _

theorem lineStart?_line : b.lineStart? (b.place o).line = some (o - (b.place o).column) := by
  have hstart : b.lineStart? (b.place o).line = some ((b.startsUpTo o).getLastD 0) :=
    cons_getElem?_of_prefix (List.takeWhile_prefix _)
  have hle : (b.startsUpTo o).getLastD 0 ≤ o := by
    rw [List.getLastD_eq_getLast?]
    cases hlast : (b.startsUpTo o).getLast? with
    | none => exact Nat.zero_le _
    | some p => exact (mem_startsUpTo.mp (List.mem_of_getLast? hlast)).2
  rw [hstart]
  simp only [place]
  congr 1
  omega

theorem column_of_isGreatest (h : IsGreatest {p | StartsLine b.chars.toList p ∧ p ≤ o} p) :
    (b.place o).column = o - p := by
  have hp : p ∈ b.startsUpTo o := mem_startsUpTo.mpr h.1
  have hne := List.ne_nil_of_mem hp
  have hle : p ≤ (b.startsUpTo o).getLastD 0 := le_getLastD startsUpTo_ascending hp
  have hlast : (b.startsUpTo o).getLastD 0 ∈ b.startsUpTo o := by
    rw [List.getLastD_eq_getLast?, List.getLast?_eq_some_getLast hne]
    exact List.getLast_mem hne
  have hge : (b.startsUpTo o).getLastD 0 ≤ p := h.2 (mem_startsUpTo.mp hlast)
  simp only [place]
  omega

theorem column_of_no_start (h : ∀ p ≤ o, ¬ StartsLine b.chars.toList p) : (b.place o).column = o := by
  have hnil : b.startsUpTo o = [] := by
    apply List.eq_nil_iff_forall_not_mem.mpr
    intro p hp
    obtain ⟨hs, hle⟩ := mem_startsUpTo.mp hp
    exact h p hle hs
  simp [place, hnil]

theorem lineStart?_succ_eq_some_iff :
    b.lineStart? (k + 1) = some p ↔ StartsLine b.chars.toList p ∧ (b.startsWithin p).card = k + 1 := by
  have hindex : b.lineStart? (k + 1) = (lineBreaks 0 b.chars.toList)[k]? := rfl
  have hcount : ∀ {j q}, (lineBreaks 0 b.chars.toList)[j]? = some q → (b.startsWithin q).card = j + 1 :=
    fun h => by rw [← length_startsUpTo, startsUpTo, length_takeWhile_le_getElem? lineBreaks_ascending h]
  rw [hindex]
  constructor
  · intro h
    obtain ⟨i, hi, rfl⟩ := mem_lineBreaks.mp (List.mem_of_getElem? h)
    refine ⟨by simpa using hi, hcount h⟩
  · rintro ⟨hs, hcard⟩
    have hmem : p ∈ lineBreaks 0 b.chars.toList := mem_lineBreaks.mpr ⟨p, hs, by omega⟩
    obtain ⟨j, hj⟩ := List.mem_iff_getElem?.mp hmem
    have := hcount hj
    obtain rfl : j = k := by omega
    exact hj

theorem lineStart?_eq_none_iff : b.lineStart? k = none ↔ (b.startsWithin b.length).card < k := by
  rw [← length_startsUpTo, startsUpTo_length, lineStart?, List.getElem?_eq_none_iff, lineStarts,
    List.length_cons, Nat.succ_le_iff]

/-! ## Searching -/

theorem line_of_found (h : b.lineStarts[i]? = some o) : (b.place o).line = i := by
  cases i with
  | zero =>
      cases h
      have hnone : b.startsUpTo 0 = [] := by
        apply List.eq_nil_iff_forall_not_mem.mpr
        intro p hp
        obtain ⟨hs, hle⟩ := mem_startsUpTo.mp hp
        exact absurd (Nat.le_trans hs.1 hle) (Nat.not_succ_le_zero 0)
      simp [place, hnone]
  | succ i => exact length_takeWhile_le_getElem? lineBreaks_ascending h

theorem line_of_missing (hi : i ≤ b.lineStarts.length) (hbefore : ∀ s ∈ b.lineStarts.take i, s < o)
    (hafter : ∀ s ∈ b.lineStarts.drop i, o < s) : (b.place o).line = i - 1 := by
  cases i with
  | zero => exact absurd (hafter 0 List.mem_cons_self) (Nat.not_lt_zero o)
  | succ i =>
      have hcut : b.startsUpTo o = (lineBreaks 0 b.chars.toList).take i := by
        refine takeWhile_le_of_cut (fun s hs => ?_) hafter
        exact Nat.le_of_lt (hbefore s (List.mem_cons_of_mem _ hs))
      simp only [place, hcut, Nat.add_sub_cancel]
      exact List.length_take_of_le (Nat.le_of_succ_le_succ hi)

/-! ## Exactness -/

theorem lineColumn_of_le (h : o ≤ b.length) : b.lineColumn o = .ok (b.place o) := if_pos h

theorem lineColumn_of_lt (h : b.length < o) : b.lineColumn o = .error (.offsetPastEnd o b.length) :=
  if_neg (Nat.not_le.mpr h)

/-- The line of an offset is the number of line starts up to it, and its column what lies between the last
of them and the offset. The line starts are listed in order, and looking the offset up among them gives
that line, whether it is found there or only the place where it would belong. Offsets past the end of the
text, and no others, are faults. -/
theorem lineColumn_exact (b : Buffer) :
    (∀ o ≤ b.length, ∃ line column start, b.lineColumn o = .ok ⟨line, column⟩ ∧
      line = (b.startsWithin o).card ∧
      (∀ p, IsGreatest {p | StartsLine b.chars.toList p ∧ p ≤ o} p → column = o - p) ∧
      ((∀ p ≤ o, ¬ StartsLine b.chars.toList p) → column = o) ∧
      b.lineStart? line = some start ∧ start + column = o ∧
      (∀ i, b.lineStarts[i]? = some o → line = i) ∧
      ∀ i ≤ b.lineStarts.length, (∀ s ∈ b.lineStarts.take i, s < o) →
        (∀ s ∈ b.lineStarts.drop i, o < s) → line = i - 1) ∧
    b.lineStart? 0 = some 0 ∧
    (∀ k p, b.lineStart? (k + 1) = some p ↔
      StartsLine b.chars.toList p ∧ (b.startsWithin p).card = k + 1) ∧
    (∀ k, b.lineStart? k = none ↔ (b.startsWithin b.length).card < k) ∧
    (∃ last, b.lineColumn b.length = .ok last ∧ b.lineCount = last.line + 1) ∧
    ∀ o, ((∃ fault, b.lineColumn o = .error fault) ↔ b.length < o) ∧
      (b.length < o → b.lineColumn o = .error (.offsetPastEnd o b.length)) := by
  refine ⟨fun o ho => ?_, rfl, fun k p => lineStart?_succ_eq_some_iff, fun k => lineStart?_eq_none_iff,
    ⟨_, lineColumn_of_le (Nat.le_refl _), ?_⟩, fun o => ⟨⟨?_, fun h => ⟨_, lineColumn_of_lt h⟩⟩,
      lineColumn_of_lt⟩⟩
  · refine ⟨_, _, _, lineColumn_of_le ho, length_startsUpTo, fun p => column_of_isGreatest,
      column_of_no_start, lineStart?_line, Nat.sub_add_cancel place_column_le, fun i => line_of_found,
      fun i => line_of_missing⟩
  · simp only [place, startsUpTo_length]
    rfl
  · rintro ⟨fault, h⟩
    by_contra hle
    rw [lineColumn_of_le (Nat.not_lt.mp hle)] at h
    cases h

/-- A carriage return before another one, before a line feed and at the end of the text, and a line feed
before a carriage return. -/
theorem lineColumn_exact_mixed :
    let b := Buffer.load 0 "a\r\r\nb\n\r"
    b.startsWithin 7 = {2, 4, 6, 7} ∧ (∃ column, b.lineColumn 5 = .ok ⟨2, column⟩ ∧ column = 1) ∧
      b.lineStart? 3 = some 6 ∧ b.lineStart? 5 = none ∧
      b.lineColumn 8 = .error (.offsetPastEnd 8 7) := by
  intro b
  obtain ⟨hplace, -, hstart, hnone, -, hfault⟩ := lineColumn_exact b
  obtain ⟨line, column, start, hok, hline, hcolumn, -⟩ := hplace 5 (by decide)
  have hcard : (b.startsWithin 5).card = 2 := by decide
  have hgreatest : IsGreatest {p | StartsLine b.chars.toList p ∧ p ≤ 5} 4 := by
    refine ⟨by decide, fun p ⟨hp, hle⟩ => ?_⟩
    by_contra hlt
    obtain rfl : p = 5 := by omega
    exact absurd hp (by decide)
  rw [hline, hcard] at hok
  refine ⟨by decide, ⟨column, hok, hcolumn 4 hgreatest⟩, (hstart 2 6).mpr (by decide),
    (hnone 5).mpr (by decide), (hfault 8).2 (by decide)⟩

end Buffer

end Packrat
