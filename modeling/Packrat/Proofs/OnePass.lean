import Packrat.Proofs.Agreement
import Packrat.Proofs.Assembled
import Packrat.Proofs.Giving
import Packrat.Proofs.Transparency

/-!
# Two passes yield what one pass yields

Where the rule of an aligned parser has an outcome, one pass over the parser yields something, and the
two passes of the engine end as it says, with the same value at the same position
(`Parser.Aligned.parses`). The induction is on the demand of the rule, and inside it on the parser.
-/

namespace Packrat

open Engine

variable {V : Type} {g : Grammar V} {text : Buffer} {limit level s : Nat}

/-- The act ends as the yield says. -/
def Returns (g : Grammar V) (text : Buffer) (act : Engine V V) (s : Nat) : Yield V → Prop
  | some (v, e) => Gives g text act s v e
  | none => Rejects g text act s

/-- Both passes of a parser, where slots nest no deeper than `level`. -/
def Engine.bothPasses (g : Grammar V) (text : Buffer) (limit level : Nat) (p : Parser V) : Engine V V :=
  twoPass text (accept g text limit) p.rule
    (p.build text (accept g text limit) (parseSlot g text limit level) limit)

/-- The second pass of a parser. -/
def Engine.secondPass (g : Grammar V) (text : Buffer) (limit level : Nat) (p : Parser V) : Engine V V :=
  p.build text (accept g text limit) (parseSlot g text limit level) limit

/-- One pass over the parser yields something, and both passes of the engine end as it says. -/
def Parses (g : Grammar V) (text : Buffer) (limit level : Nat) (p : Parser V) (s : Nat) : Prop :=
  ∃ y, Yields g text p s y ∧ Returns g text (bothPasses g text limit level p) s y

/-- One pass over the parser yields something, and the second pass builds it if it is a value. -/
def Builds (g : Grammar V) (text : Buffer) (limit level : Nat) (p : Parser V) (s : Nat) : Prop :=
  ∃ y, Yields g text p s y ∧
    ∀ v e, y = some (v, e) → Gives g text (secondPass g text limit level p) s v e

theorem Builds.parses {p : Parser V} (hg : g.Aligned) (hl : g.Ample text limit) (hs : s ≤ text.length)
    (hp : p.Aligned g) (h : Builds g text limit level p s) : Parses g text limit level p s := by
  obtain ⟨y, hy, hb⟩ := h
  refine ⟨y, hy, ?_⟩
  have hm := hy.matches hg hp
  cases y with
  | none => exact twoPass_rejects hl hs hm
  | some x =>
      obtain ⟨v, e⟩ := x
      exact twoPass_gives hl hs hm (hb v e rfl)

theorem Builds.of_accepted {p : Parser V} {e} (hg : g.Aligned) (hp : p.Aligned g)
    (h : Builds g text limit level p s) (hm : Matches g text p.rule s (.accepted e)) :
    ∃ v, Yields g text p s (some (v, e)) ∧ Gives g text (secondPass g text limit level p) s v e := by
  obtain ⟨y, hy, hb⟩ := h
  obtain ⟨v, rfl⟩ := Yield.outcome_eq_accepted_iff.mp (hy.outcome_eq hg hp hm)
  exact ⟨v, hy, hb v e rfl⟩

theorem Parses.of_accepted {p : Parser V} {e} (hg : g.Aligned) (hp : p.Aligned g)
    (h : Parses g text limit level p s) (hm : Matches g text p.rule s (.accepted e)) :
    ∃ v, Yields g text p s (some (v, e)) ∧ Gives g text (bothPasses g text limit level p) s v e := by
  obtain ⟨y, hy, hr⟩ := h
  obtain ⟨v, rfl⟩ := Yield.outcome_eq_accepted_iff.mp (hy.outcome_eq hg hp hm)
  exact ⟨v, hy, hr⟩

theorem Parses.of_rejected {p : Parser V} (hg : g.Aligned) (hp : p.Aligned g)
    (h : Parses g text limit level p s) (hm : Matches g text p.rule s .rejected) :
    Yields g text p s none ∧ Rejects g text (bothPasses g text limit level p) s := by
  obtain ⟨y, hy, hr⟩ := h
  cases Yield.outcome_eq_rejected_iff.mp (hy.outcome_eq hg hp hm)
  exact ⟨hy, hr⟩

/-! ## Parsers without parts -/

theorem silent_builds {r v o} (hl : g.Ample text limit) (hm : Matches g text r s o) :
    Builds g text limit level (.silent r v) s := by
  cases o with
  | rejected => exact ⟨none, .silent_reject hm, nofun⟩
  | accepted e =>
      refine ⟨some (v, e), .silent hm, fun v' e' h => ?_⟩
      cases h
      exact (accept_gives hl hm).bind .pure

theorem character_builds {r d test} {embed : Char → V} (hb : g.body r = .predicate d test) :
    Builds g text limit level (.character r embed) s := by
  cases hc : text.char? s with
  | none => exact ⟨none, .character_reject hb (by simp [hc]), nofun⟩
  | some c =>
      cases ht : test c with
      | false => exact ⟨none, .character_reject hb (by simpa [hc] using ht), nofun⟩
      | true =>
          refine ⟨some (embed c, s + 1), .character hb hc ht, fun v e h => ?_⟩
          cases h
          exact (next_gives hc).bind .pure

theorem Buffer.substring_takeWhile {b : Buffer} {test : Char → Bool} {p : Nat} {cs : List Char}
    (h : (b.rest p).takeWhile test = cs) (hp : p + cs.length ≤ b.length) :
    b.substring p (p + cs.length) = .ok cs := by
  have hprefix : cs <+: b.rest p := h ▸ List.takeWhile_prefix test
  have htake : (b.chars.toList.drop p).take cs.length = cs := (List.prefix_iff_eq_take.mp hprefix).symm
  simp [substring, slice?, hp, htake]

theorem characters_builds {r i d test} {embed : List Char → V} (hl : g.Ample text limit)
    (hs : s ≤ text.length) (hb : g.body r = .plus i) (hi : g.body i = .predicate d test) :
    Builds g text limit level (.characters r embed) s := by
  cases hcs : (text.rest s).takeWhile test with
  | nil => exact ⟨none, .characters_reject hb hi hcs, nofun⟩
  | cons c cs =>
      refine ⟨some (embed (c :: cs), s + (c :: cs).length), .characters hb hi hcs (by simp),
        fun v e h => ?_⟩
      cases h
      have hm : Matches g text r s (.accepted (s + (c :: cs).length)) := by
        rw [Matches, hb]
        exact .plus_predicate hi hcs
      refine position_gives.bind ((accept_gives hl hm).bind (position_gives.bind ?_))
      rw [Buffer.substring_takeWhile hcs (hm.end_le hs)]
      exact Gives.pure.bind .pure

/-! ## Demand -/

/-- Every aligned parser parses where the body asks for its rule, as far as that has an outcome there. -/
def Serves (g : Grammar V) (text : Buffer) (limit level : Nat) (b : Body) (s : Nat) : Prop :=
  ∀ k o, Asks g text b s k → Matches g text k.rule k.start o →
    ∀ p, p.Aligned g → p.rule = k.rule → ∀ n, level ≤ n → Parses g text limit n p k.start

theorem Serves.mono {b b' s'} (h : Serves g text limit level b s)
    (hb : ∀ k, Asks g text b' s' k → Asks g text b s k) : Serves g text limit level b' s' :=
  fun k o hk => h k o (hb k hk)

theorem Serves.succ {b} (h : Serves g text limit level b s) : Serves g text limit (level + 1) b s :=
  fun k o hk hm p hp hr n hn => h k o hk hm p hp hr n (Nat.le_of_succ_le hn)

theorem Serves.item {b p o} (h : Serves g text limit level b s) (hb : b.operand? = some p.rule)
    (hp : p.Aligned g) (hm : Matches g text p.rule s o) : Parses g text limit level p s :=
  h _ o (.operand hb) hm p hp rfl level (Nat.le_refl _)

theorem Serves.slot {b slot a r o} (hg : g.Aligned) (h : Serves g text limit level b s)
    (hsame : g.SameTarget slot a) (ha : g.alternativeTarget a = some r) (hk : Asks g text b s ⟨r, s⟩)
    (hm : Matches g text r s o) : ∃ p, g.parserTarget slot = some p ∧ p.rule = r ∧ p.Aligned g ∧
      Parses g text limit level p s := by
  rw [hsame, Option.map_eq_some_iff] at ha
  obtain ⟨p, hp, rfl⟩ := ha
  exact ⟨p, hp, rfl, hg slot p hp, h _ o hk hm p (hg slot p hp) rfl level (Nat.le_refl _)⟩

theorem parseSlot_gives {slot p v e} (hp : g.parserTarget slot = some p)
    (h : Gives g text (bothPasses g text limit level p) s v e) :
    Gives g text (parseSlot g text limit (level + 1) slot) s v e :=
  (resolve_gives (hp ▸ Grammar.resolveParser_finds slot)).bind h

theorem parseSlot_rejects {slot p} (hp : g.parserTarget slot = some p)
    (h : Rejects g text (bothPasses g text limit level p) s) :
    Rejects g text (parseSlot g text limit (level + 1) slot) s :=
  .bind (resolve_gives (hp ▸ Grammar.resolveParser_finds slot)) h

/-! ## Parsers with parts -/

theorem pair_builds {r a b label combine} (hg : g.Aligned) (ha : a.Aligned g)
    (hpa : Parses g text limit level a s)
    (hpb : ∀ q, Matches g text a.rule s (.accepted q) → Parses g text limit level b q) :
    Builds g text limit level (.pair r a b label combine) s := by
  obtain ⟨ya, hya, hra⟩ := hpa
  cases ya with
  | none => exact ⟨none, .pair_first hya, nofun⟩
  | some xq =>
      obtain ⟨x, q⟩ := xq
      obtain ⟨yb, hyb, hrb⟩ := hpb q (hya.matches hg ha)
      cases yb with
      | none => exact ⟨none, .pair_second hya hyb, nofun⟩
      | some ye =>
          obtain ⟨y, e⟩ := ye
          refine ⟨some (combine x y, e), .pair hya hyb, fun v e' h => ?_⟩
          cases h
          have hra : Gives g text (bothPasses g text limit level a) s x q := hra
          exact hra.bind (Gives.bind hrb (perform_gives.bind .pure))

theorem choice_builds {r slots alternatives o} (hg : g.Aligned)
    (hf : List.Forall₂ g.SameTarget slots alternatives)
    (hd : Derives g text (.choice alternatives) s o)
    (hk : Serves g text limit level (.choice alternatives) s) :
    Builds g text limit (level + 1) (.choice r slots) s := by
  induction hf with
  | nil => exact ⟨none, .choice_nil, nofun⟩
  | cons hsame _ ih =>
      cases hd with
      | choice_first ha hm =>
          obtain ⟨p, hp, rfl, hpa, hparses⟩ := hk.slot hg hsame ha (.choice_head ha) hm
          obtain ⟨v, hy, hgives⟩ := hparses.of_accepted hg hpa hm
          refine ⟨some (v, _), .choice_first hp hy, fun v' e' h => ?_⟩
          cases h
          exact (parseSlot_gives hp hgives).attempt.bind .pure
      | choice_next ha hm ht =>
          obtain ⟨p, hp, rfl, hpa, hparses⟩ := hk.slot hg hsame ha (.choice_head ha) hm
          obtain ⟨hy, hrejects⟩ := hparses.of_rejected hg hpa hm
          obtain ⟨y, hrest, hbuild⟩ := ih ht (hk.mono fun _ => .choice_tail ha hm)
          refine ⟨y, .choice_next hp hy hrest, fun v e h => ?_⟩
          exact (parseSlot_rejects hp hrejects).attempt.bind (hbuild v e h)

/-- The rounds of a repetition: what they yield together, and that they are gathered. -/
theorem star_gathers {r item o rounds} (hg : g.Aligned) (hi : item.Aligned g) (hs : s ≤ text.length)
    (hd : Derives g text (.star item.rule) s o)
    (hk : Serves g text limit level (.star item.rule) s) (hrounds : text.length < s + rounds) :
    ∃ xs e, (∀ collect, Yields g text (.star r item collect) s (some (collect xs, e))) ∧
      Gives g text (gather (bothPasses g text limit level item) rounds) s xs e := by
  induction rounds generalizing s with
  | zero => exact absurd hrounds (Nat.not_lt.mpr hs)
  | succ rounds ih =>
      cases hd with
      | star_more hm ht =>
          have hlt := Derives.lt_of_star (.star_more hm ht) hm
          obtain ⟨x, hy, hgives⟩ := (hk.item rfl hi hm).of_accepted hg hi hm
          obtain ⟨xs, e, hyields, hrest⟩ :=
            ih (hm.end_le hs) ht (hk.mono fun _ => .star_tail hm) (by omega)
          refine ⟨x :: xs, e, fun collect => .star_more hy (hyields _), ?_⟩
          exact hgives.attempt.bind (hrest.bind .pure)
      | star_stop hm =>
          obtain ⟨hy, hrejects⟩ := (hk.item rfl hi hm).of_rejected hg hi hm
          exact ⟨[], s, fun collect => .star_stop hy, hrejects.attempt.bind .pure⟩

theorem Grammar.Ample.lt (hl : g.Ample text limit) : text.length < s + limit := by
  unfold Grammar.Ample at hl
  omega

theorem star_builds {r item collect o} (hg : g.Aligned) (hl : g.Ample text limit) (hi : item.Aligned g)
    (hs : s ≤ text.length) (hd : Derives g text (.star item.rule) s o)
    (hk : Serves g text limit level (.star item.rule) s) :
    Builds g text limit level (.star r item collect) s := by
  obtain ⟨xs, e, hyields, hgives⟩ := star_gathers hg hi hs hd hk hl.lt
  refine ⟨some (collect xs, e), hyields collect, fun v e' h => ?_⟩
  cases h
  exact hgives.bind .pure

theorem plus_builds {r item collect o} (hg : g.Aligned) (hl : g.Ample text limit) (hi : item.Aligned g)
    (hs : s ≤ text.length) (hd : Derives g text (.plus item.rule) s o)
    (hk : Serves g text limit level (.plus item.rule) s) :
    Builds g text limit level (.plus r item collect) s := by
  cases hd with
  | plus hm ht =>
      obtain ⟨x, hy, hgives⟩ := (hk.item rfl hi hm).of_accepted hg hi hm
      obtain ⟨xs, e, hyields, hrest⟩ :=
        star_gathers hg hi (hm.end_le hs) ht (hk.mono fun _ => .plus_tail hm) hl.lt
      refine ⟨some (collect (x :: xs), e), .plus hy (hyields _), fun v e' h => ?_⟩
      cases h
      exact hgives.bind (hrest.bind .pure)
  | plus_reject hm =>
      obtain ⟨hy, -⟩ := (hk.item rfl hi hm).of_rejected hg hi hm
      exact ⟨none, .plus_reject hy, nofun⟩

theorem option_builds {r item embed o} (hg : g.Aligned) (hi : item.Aligned g)
    (hd : Derives g text (.option item.rule) s o)
    (hk : Serves g text limit level (.option item.rule) s) :
    Builds g text limit level (.option r item embed) s := by
  cases hd with
  | option_some hm =>
      obtain ⟨x, hy, hgives⟩ := (hk.item rfl hi hm).of_accepted hg hi hm
      refine ⟨some (embed (some x), _), .option_some hy, fun v e h => ?_⟩
      cases h
      exact hgives.attempt.bind .pure
  | option_none hm =>
      obtain ⟨hy, hrejects⟩ := (hk.item rfl hi hm).of_rejected hg hi hm
      refine ⟨some (embed none, s), .option_none hy, fun v e h => ?_⟩
      cases h
      exact hrejects.attempt.bind .pure

theorem map_builds {inner label transform} (h : Builds g text limit level inner s) :
    Builds g text limit level (.map inner label transform) s := by
  obtain ⟨y, hy, hb⟩ := h
  cases y with
  | none => exact ⟨none, .map_reject hy, nofun⟩
  | some xe =>
      obtain ⟨x, e⟩ := xe
      refine ⟨some (transform x, e), .map hy, fun v e' h => ?_⟩
      cases h
      exact (hb x e rfl).bind (perform_gives.bind .pure)

theorem spanned_builds {inner embed b} (hg : g.Aligned) (hf : inner.Fits g b) (hs : s ≤ text.length)
    (h : Builds g text limit level inner s) : Builds g text limit level (.spanned inner embed) s := by
  obtain ⟨y, hy, hb⟩ := h
  cases y with
  | none => exact ⟨none, .spanned_reject hy, nofun⟩
  | some xe =>
      obtain ⟨x, e⟩ := xe
      have hd : Derives g text b s (.accepted e) := hy.derives hg hf
      have hspan : Span.make text s e = .ok ⟨text, s, e⟩ := if_pos ⟨hd.start_le, hd.end_le hs⟩
      refine ⟨some (embed x ⟨text, s, e⟩, e), .spanned hy, fun v e' h => ?_⟩
      cases h
      refine position_gives.bind ((hb x e rfl).bind (position_gives.bind ?_))
      rw [hspan]
      exact Gives.pure.bind .pure

theorem deferred_builds {r slot a o} (hg : g.Aligned) (hsame : g.SameTarget slot a)
    (hd : Derives g text (.choice [a]) s o) (hk : Serves g text limit level (.choice [a]) s) :
    Builds g text limit (level + 1) (.deferred r slot) s := by
  have htarget : ∃ r' o', g.alternativeTarget a = some r' ∧ Matches g text r' s o' := by
    cases hd with
    | choice_first ha hm => exact ⟨_, _, ha, hm⟩
    | choice_next ha hm _ => exact ⟨_, _, ha, hm⟩
  obtain ⟨r', o', ha, hm⟩ := htarget
  obtain ⟨p, hp, -, -, y, hy, hreturns⟩ := hk.slot hg hsame ha (.choice_head ha) hm
  refine ⟨y, .deferred hp hy, fun v e h => ?_⟩
  cases h
  exact parseSlot_gives hp hreturns

/-- A part of a sequence parses: either it enters as a rule of its own, which is asked for, or by the
children of its rule, and then it parses if its body does. -/
theorem part_parses {p o rest} (hg : g.Aligned) (hl : g.Ample text limit) (hs : s ≤ text.length)
    (hp : p.Aligned g) (hm : Matches g text p.rule s o)
    (hk : Serves g text limit level (.sequence ((g.body p.rule).parts p.rule ++ rest)) s)
    (hbuilds : Serves g text limit level (g.body p.rule) s → Builds g text limit (level + 1) p s) :
    Parses g text limit (level + 1) p s := by
  cases hb : g.body p.rule with
  | sequence rules =>
      -- only the children are asked for, not the rule, so the part itself has to be built here
      rw [hb] at hk hbuilds
      exact (hbuilds (hk.mono fun _ => .append_left)).parses hg hl hs hp
  | _ =>
      rw [hb] at hk
      exact hk _ o .sequence_head hm p hp rfl (level + 1) (Nat.le_succ _)

/-! ## All parsers -/

/-- A parser that fits a body builds where the body has an outcome and its demand is served. -/
theorem Parser.Fits.builds {p b o} (hf : p.Fits g b) (hg : g.Aligned) (hl : g.Ample text limit)
    (hs : s ≤ text.length) (hd : Derives g text b s o) (hk : Serves g text limit level b s) :
    Builds g text limit (level + 1) p s := by
  induction hf generalizing s o with
  | silent => exact silent_builds hl hd
  | character hb => exact character_builds hb
  | characters hb hi => exact characters_builds hl hs hb hi
  | pair ha hb iha ihb =>
      rcases hd.of_append with ⟨q, hfirst, hsecond⟩ | hfirst
      · have hma := Derives.parts_iff.mp hfirst
        have hmb := Derives.parts_iff.mp hsecond
        apply pair_builds hg ha (part_parses hg hl hs ha hma hk (iha hs hma))
        intro q' hq'
        cases hma.unique hq'
        have hq := hma.end_le hs
        -- the second part begins where the first ends, and its demand is what follows there
        have hk' := hk.mono fun _ h => h.append_right hfirst
        rw [← List.append_nil (Body.parts _ _)] at hk'
        exact part_parses hg hl hq hb hmb hk' (ihb hq hmb)
      · have hma := Derives.parts_iff.mp hfirst
        apply pair_builds hg ha (part_parses hg hl hs ha hma hk (iha hs hma))
        intro q' hq'
        cases hma.unique hq'
  | choice h => exact choice_builds hg h hd hk
  | star hi => exact star_builds hg hl hi hs hd hk.succ
  | plus hi => exact plus_builds hg hl hi hs hd hk.succ
  | option hi => exact option_builds hg hi hd hk.succ
  | map hi ih => exact map_builds (ih hs hd hk)
  | spanned hi ih => exact spanned_builds hg hi hs (ih hs hd hk)
  | deferred h => exact deferred_builds hg h hd hk

theorem builds_of_within {n k o p} (hg : g.Aligned) (hl : g.Ample text limit) (hn : Within g text n k)
    (hs : k.start ≤ text.length) (hm : Matches g text k.rule k.start o) (hp : p.Aligned g)
    (hr : p.rule = k.rule) (hlevel : n ≤ level) : Builds g text limit level p k.start := by
  induction n generalizing k o p level with
  | zero => cases hn
  | succ n ih =>
      obtain ⟨level, rfl⟩ : ∃ m, level = m + 1 := ⟨level - 1, by omega⟩
      have hle := Nat.le_of_succ_le_succ hlevel
      -- the demand of the body is less deep, so its slots get by with one level less
      have hk : Serves g text limit level (g.body p.rule) k.start := by
        intro k' o' hk' hm' p' hp' hr' m hm
        rw [hr] at hk'
        have hs' := hk'.bounds.2 hs
        exact (ih (hn k' hk') hs' hm' hp' hr' (Nat.le_trans hle hm)).parses hg hl hs' hp'
      rw [← hr] at hm
      exact hp.builds hg hl hs hm hk

/-- Where the rule of an aligned parser has an outcome, the parser yields, and construction alone builds
the value that is yielded and ends where it ends. -/
theorem Parser.Aligned.constructs {p o fuel} (hp : p.Aligned g) (hg : g.Aligned) (hl : g.Ample text fuel)
    (hs : s ≤ text.length) (hm : Matches g text p.rule s o) : Builds g text fuel fuel p s := by
  apply builds_of_within (k := ⟨p.rule, s⟩) hg hl (hm.within hs) hs hm hp rfl
  unfold Grammar.Ample at hl
  omega

/-- Where the rule of an aligned parser has an outcome, the parser yields, and the engine agrees. -/
theorem Parser.Aligned.parses {p o fuel} (hp : p.Aligned g) (hg : g.Aligned) (hl : g.Ample text fuel)
    (hs : s ≤ text.length) (hm : Matches g text p.rule s o) :
    ∃ y, Yields g text p s y ∧ Returns g text (parseAt g text fuel p) s y :=
  (hp.constructs hg hl hs hm).parses hg hl hs hp

/-! ## The engine and one pass -/

section

variable {run after : Run V} {p : Parser V} {y : Yield V} {fuel : Nat}

theorem parseAt_decided (good : run.Good g text)
    (h : Ensures (parseAt g text fuel p) run (fun _ _ => True) fun halt _ => ∃ e, halt = .failed e) :
    ∃ o, Matches g text p.rule run.position o := by
  have hrec := accept_recognizes fuel p.rule run good
  cases hr : accept g text fuel p.rule run with
  | ok x mid => exact ⟨_, (hrec.of_ok hr).outcome⟩
  | error halt mid =>
      have herr : parseAt g text fuel p run = .error halt mid :=
        (bind_of_ok position_eq).trans (bind_of_error hr)
      obtain ⟨e, rfl⟩ := h.of_error herr
      exact absurd rfl ((hrec.of_error hr).ne_failed e)

theorem Yields.parseAt_ample (hg : g.Aligned) (hp : p.Aligned g) (good : run.Good g text)
    (hy : Yields g text p run.position y) (hl : g.Ample text fuel) :
    Returns g text (parseAt g text fuel p) run.position y := by
  obtain ⟨y', hy', hreturns⟩ := hp.parses hg hl good.inside (hy.matches hg hp)
  cases hy.unique hy'
  exact hreturns

/-- Where the parser yields, whatever a parse comes to is what the yield says. -/
theorem Yields.parseAt_settled (hg : g.Aligned) (hp : p.Aligned g) (good : run.Good g text)
    (hy : Yields g text p run.position y) (hs : Settled (parseAt g text fuel p run)) :
    ∃ after, after.Good g text ∧
      ((∃ v, parseAt g text fuel p run = .ok v after ∧ y = some (v, after.position)) ∨
        parseAt g text fuel p run = .error (.failed .rejected) after ∧ y = none ∧
          after.position = run.position) := by
  obtain ⟨more, hl, hle⟩ := g.exists_ample text fuel
  have hreturns := hy.parseAt_ample hg hp good hl
  -- a parse that finishes does the same with more fuel
  rw [← parseAt_refines g text hle p run hs]
  cases y with
  | some x =>
      obtain ⟨v, e⟩ := x
      obtain ⟨v', after, hok, hgood, rfl, rfl⟩ := (hreturns run good rfl).exists_ok
      exact ⟨after, hgood, .inl ⟨v', hok, rfl⟩⟩
  | none =>
      obtain ⟨halt, after, herr, hgood, rfl, hpos⟩ := (hreturns run good rfl).exists_error
      exact ⟨after, hgood, .inr ⟨herr, rfl, hpos⟩⟩

theorem parseAt_yields (hg : g.Aligned) (hp : p.Aligned g) (good : run.Good g text)
    (h : Ensures (parseAt g text fuel p) run (fun _ _ => True) fun halt _ => ∃ e, halt = .failed e) :
    ∃ y, Yields g text p run.position y := by
  obtain ⟨o, hm⟩ := parseAt_decided good h
  obtain ⟨y, hy, -⟩ := hp.parses hg (Nat.lt_succ_self _) good.inside hm
  exact ⟨y, hy⟩

end

/-- Parsing at a position gives the value `v` and ends at `e` if and only if one pass over the parser
yields `v` and ends at `e`, and it is rejected where it began if and only if the one pass is rejected.
Where the one pass comes to anything, a parse that finishes comes to nothing else, and the table is
confirmed again. -/
theorem parseAt_iff_yields {w : Workspace V} {known p} (assembled : Assembled w known) (hp : p ∈ known)
    {run : Run V} (inside : run.position ≤ text.length) (sound : run.bindings.Sound w.grammar)
    (confirmed : run.memo.Confirmed w.grammar text run.bindings) :
    (∀ v e, (∃ fuel after, parseAt w.grammar text fuel p run = .ok v after ∧ after.position = e) ↔
      Yields w.grammar text p run.position (some (v, e))) ∧
    ((∃ fuel after, parseAt w.grammar text fuel p run = .error (.failed .rejected) after ∧
      after.position = run.position) ↔ Yields w.grammar text p run.position none) ∧
    ∀ y, Yields w.grammar text p run.position y →
      ∀ fuel, Settled (parseAt w.grammar text fuel p run) →
        ∃ after, after.memo.Confirmed w.grammar text after.bindings ∧
          ((∃ v, parseAt w.grammar text fuel p run = .ok v after ∧ y = some (v, after.position)) ∨
            parseAt w.grammar text fuel p run = .error (.failed .rejected) after ∧ y = none ∧
              after.position = run.position) := by
  have hg := assembled.consistent.aligned_slots
  have hpa := assembled.consistent.aligned hp
  have good : run.Good w.grammar text := ⟨inside, sound, (Memo.confirmed_iff_correct sound).mp confirmed⟩
  have hample : w.grammar.Ample text _ := Nat.lt_succ_self _
  refine ⟨fun v e => ⟨?_, fun hy => ?_⟩, ⟨?_, fun hy => ?_⟩, fun y hy fuel hs => ?_⟩
  · rintro ⟨fuel, after, hok, rfl⟩
    obtain ⟨y, hy⟩ := parseAt_yields hg hpa good (.done hok trivial)
    obtain ⟨after', -, ⟨v', hok', rfl⟩ | ⟨herr, -⟩⟩ := hy.parseAt_settled hg hpa good (.of_ok hok)
    · cases hok.symm.trans hok'
      exact hy
    · cases hok.symm.trans herr
  · obtain ⟨v', after, hok, -, rfl, rfl⟩ := (hy.parseAt_ample hg hpa good hample run good rfl).exists_ok
    exact ⟨_, after, hok, rfl⟩
  · rintro ⟨fuel, after, herr, -⟩
    obtain ⟨y, hy⟩ := parseAt_yields hg hpa good (.fail herr ⟨_, rfl⟩)
    obtain ⟨after', -, ⟨v, hok, -⟩ | ⟨-, rfl, -⟩⟩ :=
      hy.parseAt_settled hg hpa good (.of_error herr nofun)
    · cases herr.symm.trans hok
    · exact hy
  · obtain ⟨_, after, herr, -, rfl, hpos⟩ :=
      (hy.parseAt_ample hg hpa good hample run good rfl).exists_error
    exact ⟨_, after, herr, hpos⟩
  · obtain ⟨after, hgood, hafter⟩ := hy.parseAt_settled hg hpa good hs
    exact ⟨after, (Memo.confirmed_iff_correct hgood.sound).mpr hgood.correct, hafter⟩

/-- An application of an abstraction is parsed as a whole, and nothing is parsed at its end. -/
theorem parseAt_iff_yields_application :
    let g := Lambda.workspace.grammar
    let text := Buffer.load 0 "(λx.x)y"
    (∃ v, Yields g text Lambda.root 0 (some (v, 7)) ∧ v.render = "((λx.x) y)") ∧
      Yields g text Lambda.root 7 none := by
  intro g text
  obtain ⟨known, assembled, hroot⟩ := Lambda.assembled
  have inside : ∀ p ≤ 7, (Run.begin p (.empty .full) (.empty : Bindings Lambda.Piece)).position ≤
      text.length := fun p hp => hp
  have parsed : Ensures (parseAt g text 40 Lambda.root) (.begin 0 (.empty .full) .empty)
      (fun v after => v.render = "((λx.x) y)" ∧ after.position = 7) fun _ _ => False := by
    decide +kernel
  have rejected : Ensures (parseAt g text 40 Lambda.root) (.begin 7 (.empty .full) .empty)
      (fun _ _ => False) fun halt after => halt = .failed .rejected ∧ after.position = 7 := by
    decide +kernel
  constructor
  · obtain ⟨v, after, hok, hv, hpos⟩ := parsed.exists_ok
    have h := parseAt_iff_yields assembled hroot (inside 0 (Nat.zero_le _)) .empty .empty
    exact ⟨v, (h.1 v 7).mp ⟨40, after, hok, hpos⟩, hv⟩
  · obtain ⟨_, after, herr, rfl, hpos⟩ := rejected.exists_error
    have h := parseAt_iff_yields assembled hroot (inside 7 (Nat.le_refl _)) .empty .empty
    exact h.2.1.mp ⟨40, after, herr, hpos⟩

end Packrat
