import Mathlib.Algebra.GroupWithZero.Nat
import Packrat.Proofs.Spans

/-!
# Joining spans

Two spans can be joined if the second starts where the first ends, in the same text. Joining is associative,
so it makes no difference in which order spans that follow one another are joined in pairs: each order gives
the span from where the first starts to where the last ends, whose text is theirs in a row
(`Span.joining_laws`). The join is made without a check of its range, and none is needed.
-/

namespace Packrat

namespace Span

/-- The spans that come of making spans and of joining them. -/
inductive Arises : Span → Prop
  | make {buffer start stop s} (h : Span.make buffer start stop = .ok s) : Arises s
  | concat {a b s} (ha : Arises a) (hb : Arises b) (h : a.concat? b = some s) : Arises s

/-- The span lies inside its text. -/
structure Inside (s : Span) : Prop where
  ordered : s.start ≤ s.stop
  stop_le : s.stop ≤ s.buffer.length

/-- The second span starts where the first ends, in the same text. -/
def Meets (a b : Span) : Prop := a.sameSource b = true ∧ a.stop = b.start

instance {a b : Span} : Decidable (a.Meets b) := inferInstanceAs (Decidable (_ ∧ _))

variable {a b c s : Span} {xs : List Span}

theorem sameSource_iff : a.sameSource b = true ↔ a.buffer = b.buffer := by simp [sameSource]

theorem concat?_eq_some_iff : a.concat? b = some s ↔ a.Meets b ∧ { a with stop := b.stop } = s := by
  unfold concat?
  split
  · next h => exact ⟨fun hs => ⟨h, Option.some.inj hs⟩, fun hs => congrArg some hs.2⟩
  · next h => exact ⟨nofun, fun hs => absurd hs.1 h⟩

theorem concat?_isSome_iff : (a.concat? b).isSome ↔ a.Meets b := by
  rw [Option.isSome_iff_exists]
  constructor
  · rintro ⟨s, hs⟩
    exact (concat?_eq_some_iff.mp hs).1
  · intro h
    exact ⟨_, concat?_eq_some_iff.mpr ⟨h, rfl⟩⟩

/-! ## Inside the text -/

namespace Inside

theorem of_make {buffer : Buffer} {start stop : Nat} (h : Span.make buffer start stop = .ok s) :
    s.Inside := by
  unfold Span.make at h
  split at h
  · next hin =>
    cases h
    exact ⟨hin.1, hin.2⟩
  · cases h

theorem concat (ha : a.Inside) (hb : b.Inside) (h : a.concat? b = some s) : s.Inside := by
  obtain ⟨⟨hsource, hmeet⟩, rfl⟩ := concat?_eq_some_iff.mp h
  refine ⟨Nat.le_trans ha.ordered (hmeet ▸ hb.ordered), ?_⟩
  rw [sameSource_iff.mp hsource]
  exact hb.stop_le

theorem slice?_eq (h : s.Inside) : s.buffer.slice? s.start s.stop = some s.chars := by
  obtain ⟨cs, hcs⟩ := Option.isSome_iff_exists.mp (Buffer.slice?_isSome_iff.mpr ⟨h.ordered, h.stop_le⟩)
  rw [chars, hcs, Option.getD_some]

theorem length_chars (h : s.Inside) : s.chars.length = s.length := by
  have hstop := Buffer.length_of_slice? h.slice?_eq
  unfold length
  omega

theorem chars_concat (ha : a.Inside) (hb : b.Inside) (h : a.concat? b = some s) :
    s.chars = a.chars ++ b.chars := by
  have hs := ha.concat hb h
  obtain ⟨⟨hsource, hmeet⟩, rfl⟩ := concat?_eq_some_iff.mp h
  obtain ⟨buffer, start, mid⟩ := a
  obtain ⟨_, _, stop⟩ := b
  cases sameSource_iff.mp hsource
  cases hmeet
  -- all three are told apart from the rest of the text by what is left after the join
  apply List.append_cancel_right
  calc
    Span.chars ⟨buffer, start, stop⟩ ++ buffer.rest stop = buffer.rest start :=
      Buffer.chars_append_rest hs.ordered hs.stop_le
    _ = Span.chars ⟨buffer, start, mid⟩ ++ buffer.rest mid :=
      (Buffer.chars_append_rest ha.ordered ha.stop_le).symm
    _ = Span.chars ⟨buffer, start, mid⟩ ++ (Span.chars ⟨buffer, mid, stop⟩ ++ buffer.rest stop) := by
      rw [Buffer.chars_append_rest hb.ordered hb.stop_le]
    _ = _ := (List.append_assoc ..).symm

theorem text_concat (ha : a.Inside) (hb : b.Inside) (h : a.concat? b = some s) :
    s.text = a.text ++ b.text := by
  rw [text, ha.chars_concat hb h, String.ofList_append]
  rfl

theorem length_concat (ha : a.Inside) (hb : b.Inside) (h : a.concat? b = some s) :
    s.length = a.length + b.length := by
  rw [← (ha.concat hb h).length_chars, ha.chars_concat hb h, List.length_append, ha.length_chars,
    hb.length_chars]

end Inside

theorem Arises.inside (h : s.Arises) : s.Inside := by
  induction h with
  | make h => exact .of_make h
  | concat _ _ h iha ihb => exact iha.concat ihb h

/-! ## In any order -/

theorem concat?_assoc (a b c : Span) :
    ((a.concat? b).bind fun ab => ab.concat? c) = (b.concat? c).bind fun bc => a.concat? bc := by
  apply Option.ext
  intro s
  simp only [Option.bind_eq_some_iff, concat?_eq_some_iff]
  constructor
  · rintro ⟨_, ⟨hab, rfl⟩, ⟨hsource, hstop⟩, rfl⟩
    have hbc : b.sameSource c = true :=
      sameSource_iff.mpr ((sameSource_iff.mp hab.1).symm.trans (sameSource_iff.mp hsource))
    exact ⟨_, ⟨⟨hbc, hstop⟩, rfl⟩, hab, rfl⟩
  · rintro ⟨_, ⟨hbc, rfl⟩, hab, rfl⟩
    have hac : a.sameSource c = true :=
      sameSource_iff.mpr ((sameSource_iff.mp hab.1).trans (sameSource_iff.mp hbc.1))
    exact ⟨_, ⟨hab, rfl⟩, ⟨hac, hbc.2⟩, rfl⟩

/-- The empty span where a span starts leaves it alone, and so does the one where it ends. -/
theorem concat?_empty (s : Span) :
    Span.concat? ⟨s.buffer, s.start, s.start⟩ s = some s ∧
      s.concat? ⟨s.buffer, s.stop, s.stop⟩ = some s :=
  ⟨concat?_eq_some_iff.mpr ⟨⟨sameSource_iff.mpr rfl, rfl⟩, rfl⟩,
    concat?_eq_some_iff.mpr ⟨⟨sameSource_iff.mpr rfl, rfl⟩, rfl⟩⟩

/-- Spans joined one after another, the first with the next. -/
def joinFrom (first : Span) (rest : List Span) : Option Span := rest.foldlM concat? first

theorem joinFrom_cons : a.joinFrom (b :: xs) = (a.concat? b).bind fun ab => ab.joinFrom xs := rfl

theorem joinFrom_append {ys : List Span} :
    a.joinFrom (xs ++ ys) = (a.joinFrom xs).bind fun s => s.joinFrom ys := List.foldlM_append

/-- A span is joined with all that follow it as with the join of those. -/
theorem joinFrom_cons_eq_concat? :
    a.joinFrom (b :: xs) = (b.joinFrom xs).bind fun s => a.concat? s := by
  induction xs generalizing a b with
  | nil => exact Option.bind_fun_some _
  | cons c xs ih =>
      calc
        a.joinFrom (b :: c :: xs) = (a.concat? b).bind fun ab => ab.joinFrom (c :: xs) := joinFrom_cons
        _ = (a.concat? b).bind fun ab => (c.joinFrom xs).bind fun s => ab.concat? s := by simp only [ih]
        _ = (c.joinFrom xs).bind fun s => (a.concat? b).bind fun ab => ab.concat? s := Option.bind_comm ..
        _ = (c.joinFrom xs).bind fun s => (b.concat? s).bind fun bs => a.concat? bs := by
          simp only [concat?_assoc]
        _ = (b.joinFrom (c :: xs)).bind fun s => a.concat? s := by rw [ih, Option.bind_assoc]

theorem joinFrom_eq_some_iff : a.joinFrom xs = some s ↔
    (a :: xs).IsChain Meets ∧ { a with stop := (xs.getLastD a).stop } = s := by
  induction xs generalizing a s with
  | nil => simp [joinFrom]
  | cons b xs ih =>
      rw [joinFrom_cons_eq_concat?, Option.bind_eq_some_iff, List.isChain_cons_cons, List.getLastD_cons]
      simp only [ih, concat?_eq_some_iff]
      constructor
      · rintro ⟨_, ⟨hchain, rfl⟩, hab, rfl⟩
        exact ⟨⟨hab, hchain⟩, rfl⟩
      · rintro ⟨⟨hab, hchain⟩, rfl⟩
        exact ⟨_, ⟨hchain, rfl⟩, hab, rfl⟩

theorem Inside.joinFrom (ha : a.Inside) (hxs : ∀ x ∈ xs, x.Inside) (h : a.joinFrom xs = some s) :
    s.Inside ∧ s.text = String.join ((a :: xs).map text) ∧ s.length = ((a :: xs).map length).sum := by
  induction xs generalizing a s with
  | nil =>
      cases h
      exact ⟨ha, by simp, by simp⟩
  | cons b xs ih =>
      obtain ⟨hb, hxs⟩ := List.forall_mem_cons.mp hxs
      rw [joinFrom_cons_eq_concat?, Option.bind_eq_some_iff] at h
      obtain ⟨bs, hbs, hs⟩ := h
      obtain ⟨hin, htext, hlength⟩ := ih hb hxs hbs
      refine ⟨ha.concat hin hs, ?_, ?_⟩
      · rw [ha.text_concat hin hs, htext, List.map_cons (a := a), String.join_cons]
      · rw [ha.length_concat hin hs, hlength, List.map_cons (a := a), List.sum_cons]

/-- An order in which spans are joined in pairs. -/
inductive Bracketing where
  | one (s : Span)
  | both (left right : Bracketing)

namespace Bracketing

def spans : Bracketing → List Span
  | one s => [s]
  | both left right => left.spans ++ right.spans

def joined : Bracketing → Option Span
  | one s => some s
  | both left right => left.joined.bind fun a => right.joined.bind fun b => a.concat? b

theorem exists_spans_eq_cons (t : Bracketing) : ∃ first rest, t.spans = first :: rest := by
  induction t with
  | one s => exact ⟨s, [], rfl⟩
  | both left right ihl _ =>
      obtain ⟨first, rest, hl⟩ := ihl
      exact ⟨first, rest ++ right.spans, by rw [spans, hl, List.cons_append]⟩

theorem joined_eq_joinFrom {t : Bracketing} {first : Span} {rest : List Span}
    (h : t.spans = first :: rest) : t.joined = first.joinFrom rest := by
  induction t generalizing first rest with
  | one s =>
      cases h
      rfl
  | both left right ihl ihr =>
      obtain ⟨a, xs, hl⟩ := left.exists_spans_eq_cons
      obtain ⟨b, ys, hr⟩ := right.exists_spans_eq_cons
      rw [spans, hl, hr, List.cons_append] at h
      cases h
      calc
        (both left right).joined
          = (first.joinFrom xs).bind fun s => (b.joinFrom ys).bind fun s' => s.concat? s' := by
            rw [joined, ihl hl, ihr hr]
        _ = (first.joinFrom xs).bind fun s => s.joinFrom (b :: ys) := by
            simp only [joinFrom_cons_eq_concat?]
        _ = first.joinFrom (xs ++ b :: ys) := joinFrom_append.symm

end Bracketing

/-! ## The laws -/

/-- Spans that are made and joined lie inside their text, so their lengths and their texts are those of the
ranges that they name. Two spans can be joined if and only if the second starts where the first ends, in the
same text; the texts and lengths add up. Joining is associative, defined in both orders or in neither, and
has the empty spans as its units. In whatever order spans are joined in pairs, it comes to the same: the span
from where the first starts to where the last ends if each meets the next, and nothing otherwise. -/
theorem joining_laws :
    (∀ s, Arises s → s.start ≤ s.stop ∧ s.stop ≤ s.buffer.length ∧ s.start + s.length = s.stop ∧
      s.buffer.slice? s.start s.stop = some s.text.toList) ∧
    (∀ a b, ((a.concat? b).isSome ↔ a.sameSource b = true ∧ a.stop = b.start) ∧
      (Arises a → Arises b → ∀ s, a.concat? b = some s →
        s.text = a.text ++ b.text ∧ s.length = a.length + b.length)) ∧
    (∀ a b c : Span, ((a.concat? b).bind fun ab => ab.concat? c) = (b.concat? c).bind fun bc => a.concat? bc) ∧
    (∀ s : Span, Span.concat? ⟨s.buffer, s.start, s.start⟩ s = some s ∧
      s.concat? ⟨s.buffer, s.stop, s.stop⟩ = some s) ∧
    ∀ (t : Bracketing) (first : Span) (rest : List Span), t.spans = first :: rest →
      ((first :: rest).IsChain Meets →
        t.joined = some { first with stop := (rest.getLastD first).stop }) ∧
      (¬ (first :: rest).IsChain Meets → t.joined = none) ∧
      ((∀ s ∈ t.spans, Arises s) → ∀ s, t.joined = some s →
        s.text = String.join (t.spans.map text) ∧ s.length = (t.spans.map length).sum) := by
  refine ⟨fun s hs => ?_, fun a b => ⟨concat?_isSome_iff, fun ha hb s h => ?_⟩, concat?_assoc,
    concat?_empty, fun t first rest ht => ?_⟩
  · have hin := hs.inside
    refine ⟨hin.ordered, hin.stop_le, Nat.add_sub_cancel' hin.ordered, ?_⟩
    rw [hin.slice?_eq, text, String.toList_ofList]
  · exact ⟨ha.inside.text_concat hb.inside h, ha.inside.length_concat hb.inside h⟩
  · rw [Bracketing.joined_eq_joinFrom ht]
    refine ⟨fun hchain => joinFrom_eq_some_iff.mpr ⟨hchain, rfl⟩, fun hchain => ?_, fun harises s hs => ?_⟩
    · rw [Option.eq_none_iff_forall_ne_some]
      intro s hs
      exact hchain (joinFrom_eq_some_iff.mp hs).1
    · rw [ht] at harises ⊢
      obtain ⟨hfirst, hrest⟩ := List.forall_mem_cons.mp harises
      exact (hfirst.inside.joinFrom (fun x hx => (hrest x hx).inside) hs).2

/-- Spans of a text with empty ones at a seam and at the end, and one of another text with the same
characters. -/
theorem joining_laws_words :
    let text := Buffer.load 0 "ab cd"
    let foreign : Span := ⟨.load 1 "ab cd", 2, 5⟩
    let words : Span.Bracketing := .both (.both (.one ⟨text, 0, 2⟩) (.one ⟨text, 2, 2⟩))
      (.both (.one ⟨text, 2, 5⟩) (.one ⟨text, 5, 5⟩))
    (∀ s ∈ foreign :: words.spans, s.Arises) ∧ words.joined = some ⟨text, 0, 5⟩ ∧
      Span.text ⟨text, 0, 5⟩ = String.join ["ab", "", " cd", ""] ∧
      (Span.concat? ⟨text, 0, 2⟩ foreign) = none := by
  intro text foreign words
  have harises : ∀ s ∈ foreign :: words.spans, s.Arises := by
    have hmake : ∀ s ∈ foreign :: words.spans, Span.make s.buffer s.start s.stop = .ok s := by
      decide +kernel
    exact fun s hs => .make (hmake s hs)
  obtain ⟨-, hconcat, -, -, hjoin⟩ := joining_laws
  obtain ⟨hjoined, -, htext⟩ := hjoin words _ _ rfl
  have hwords := hjoined (by decide +kernel)
  obtain ⟨hsame, -⟩ := htext (fun s hs => harises s (List.mem_cons_of_mem _ hs)) _ hwords
  refine ⟨harises, hwords, hsame, ?_⟩
  rw [← Option.not_isSome_iff_eq_none, (hconcat ..).1]
  decide +kernel

end Span

end Packrat
