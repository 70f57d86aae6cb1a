import Packrat.Proofs.Actions
import Packrat.Proofs.Filling
import Packrat.Proofs.OnceOnly

/-!
# What construction evaluates

A pair whose part is a pair itself, or has another sequence as its rule, has a rule with the children of
that sequence in place of it. So recognition does not evaluate the rule of the part, and construction does,
for the part is parsed by its own rule. Such rules are absorbed. Construction evaluates the absorbed rules
of the parse tree that are not known for another reason, and nothing else (`construction_evaluates_absorbed`).
-/

namespace Packrat

open Engine Relation

variable {V : Type} {g : Grammar V} {text : Buffer}

/-! ## Absorbed rules -/

namespace ParseTree

/-- The rule of the tree at its start, if it is a sequence. -/
def sequence? (g : Grammar V) (t : ParseTree V) : Option Memo.Key :=
  if g.kind t.parser.rule = .sequence then some ⟨t.parser.rule, t.start⟩ else none

end ParseTree

/-- What the rule of the parser absorbs: the sequences that are rules of the parts of a pair. -/
@[simp]
def Parser.absorbs (g : Grammar V) : Parser V → List (ParseTree V) → List Memo.Key
  | .pair .., parts => parts.filterMap (ParseTree.sequence? g)
  | _, _ => []

namespace ParseTree

/-- The absorbed rules of all pairs in the tree. -/
def absorbed (g : Grammar V) (t : ParseTree V) : List Memo.Key :=
  t.postorder.flatMap fun u => u.parser.absorbs g u.parts

@[simp] theorem absorbed_node {p : Parser V} {s e v} {ts : List (ParseTree V)} :
    (node p s e v ts).absorbed g = ts.flatMap (absorbed g) ++ p.absorbs g ts := by
  rw [absorbed, postorder, postorderOfParts_eq, List.flatMap_append, List.flatMap_assoc]
  simp only [List.flatMap_cons, List.flatMap_nil, List.append_nil, parser_node, parts_node]
  rfl

end ParseTree

namespace Parsed

variable {a c : Parser V} {s : Nat} {t ta tc : ParseTree V} {k : Memo.Key}

theorem absorbed_eq (h : Parsed g text a s t) :
    t.absorbed g = t.parts.flatMap (ParseTree.absorbed g) ++ a.absorbs g t.parts := by
  rw [← h.parser_eq]
  cases t
  exact ParseTree.absorbed_node

theorem sequence?_eq_some_iff (h : Parsed g text a s t) :
    t.sequence? g = some k ↔ g.kind a.rule = .sequence ∧ k = ⟨a.rule, s⟩ := by
  rw [ParseTree.sequence?, h.parser_eq, h.start_eq]
  split
  · next hkind => simp [hkind, eq_comm]
  · next hkind => simp [hkind]

theorem mem_absorbed_pair {r : RuleId} {label combine} {e : Nat} {v : V} (ha : Parsed g text a s ta)
    (hc : Parsed g text c ta.stop tc) :
    k ∈ (ParseTree.node (.pair r a c label combine) s e v [ta, tc]).absorbed g ↔
      (g.kind a.rule = .sequence ∧ k = ⟨a.rule, s⟩ ∨ k ∈ ta.absorbed g) ∨
        (g.kind c.rule = .sequence ∧ k = ⟨c.rule, ta.stop⟩ ∨ k ∈ tc.absorbed g) := by
  rw [← ha.sequence?_eq_some_iff, ← hc.sequence?_eq_some_iff, or_or_or_comm, or_comm]
  simp [or_assoc]

end Parsed

/-! ## Revisiting a parser -/

namespace Memo

/-- Everything that matching the body from the position asks the table about is known. -/
def Prepared (g : Grammar V) (text : Buffer) (m : Memo) (b : Body) (p : Nat) : Prop :=
  ∀ k, Consults g text b p k → m.Knows k

variable {m m' : Memo} {b b' : Body} {p p' : Nat} {k : Key} {new new' : Key → Prop}

theorem Closed.prepared (h : m.Closed g text) {r : RuleId} (hk : m.Knows ⟨r, p⟩) :
    m.Prepared g text (g.body r) p := fun _ hk' => h.consulted _ _ hk hk'

theorem Prepared.mono (h : m.Prepared g text b p) (hb : b.isLookahead = false)
    (hasks : ∀ k, Asks g text b' p' k → Asks g text b p k) : m.Prepared g text b' p' :=
  fun k hk => h k ⟨hb, hasks k hk.2⟩

theorem Prepared.fill (h : m.Prepared g text b p) (hf : m.Fills new m') : m'.Prepared g text b p :=
  fun k hk => (hf.knows k).mpr (.inl (h k hk))

theorem Fills.of_known (h : m.Fills (fun k' => k' = k ∨ new k') m') (hk : m.Knows k) : m.Fills new m' := by
  apply h.congr
  intro k' hk'
  refine or_iff_right ?_
  rintro rfl
  exact hk' hk

theorem Fills.nothing_of_known (h : m.Fills (· = k) m') (hk : m.Knows k) : m.Fills (fun _ => False) m' :=
  Fills.of_known (h.congr fun _ _ => (or_false _).symm.to_iff) hk

end Memo

/-- The run `after` comes from `run` by a pass over the parser, which has filled in the keys in `new` of the
tree that it has gone along. -/
structure Run.Revisited (g : Grammar V) (text : Buffer) (p : Parser V)
    (new : ParseTree V → Memo.Key → Prop) (run after : Run V) : Prop where
  closed : after.memo.Closed g text
  fills : ∀ t, Parsed g text p run.position t → run.memo.Fills (new t) after.memo

/-- From where the rule is known and the body prepared, a value has filled in the absorbed rules of its
tree. -/
def Rebuilds (g : Grammar V) (text : Buffer) (p : Parser V) (b : Body) (act : Engine V V) : Prop :=
  ∀ run : Run V, run.Good g text → run.memo.Closed g text → run.memo.Knows ⟨p.rule, run.position⟩ →
    run.memo.Prepared g text b run.position →
    Ensures act run (fun _ after => run.Revisited g text p (fun t k => k ∈ t.absorbed g) after)
      fun _ _ => True

/-- From where the body is prepared, a value has filled in the rule and the absorbed rules of its tree, and
a rejection has filled in the rule. -/
def Revisits (g : Grammar V) (text : Buffer) (p : Parser V) (act : Engine V V) : Prop :=
  ∀ run : Run V, run.Good g text → run.memo.Closed g text →
    run.memo.Prepared g text (g.body p.rule) run.position →
    Ensures act run
      (fun _ after => run.Revisited g text p
        (fun t k => k = ⟨p.rule, run.position⟩ ∨ k ∈ t.absorbed g) after)
      fun halt after => halt = .failed .rejected →
        after.memo.Closed g text ∧ run.memo.Fills (· = ⟨p.rule, run.position⟩) after.memo

/-- Where the body is prepared, only the rule itself is new. -/
theorem Visited.fills_self {r : RuleId} {run after : Run V} {x : Bool} (h : Visited g text r run x after)
    (closed : run.memo.Closed g text) (hb : run.memo.Prepared g text (g.body r) run.position) :
    run.memo.Fills (· = ⟨r, run.position⟩) after.memo := by
  apply h.fills.congr
  intro k hk
  constructor
  · intro hreach
    rcases hreach.cases_tail with rfl | ⟨top, hreach, htop⟩
    · rfl
    · exact absurd (closed.reaches (hb top htop) hreach) hk
  · rintro rfl
    exact .refl

variable {run : Run V} {p : Parser V} {limit level : Nat}

theorem bothPasses_revisits (hg : g.Aligned) (hp : p.Aligned g)
    (h : Rebuilds g text p (g.body p.rule) (secondPass g text limit level p)) :
    Revisits g text p (bothPasses g text limit level p) := by
  intro run good closed hprepared
  apply Ensures.step position_eq
  have hvisit := (accept_visits limit).visits p.rule run good closed
  refine (((accept_recognizes limit p.rule run good).and hvisit).imp_right ?_).bind ?_
  · exact fun halt _ ⟨hstops, _⟩ he => absurd he (hstops.ne_failed _)
  · rintro x mid ⟨-, hm⟩
    have hself := hm.fills_self closed hprepared
    cases x with
    | false => exact .step (rewind_eq good.inside) (.throw fun _ => ⟨hm.closed, hself⟩)
    | true =>
        have hback : (mid.moveTo run.position).Good g text := hm.good.moveTo good.inside
        have hknown : mid.memo.Knows ⟨p.rule, run.position⟩ := (hself.knows _).mpr (.inr rfl)
        have hstands : Ensures (secondPass g text limit level p) (mid.moveTo run.position) _ _ :=
          secondPass_stands hg hp hback hm.outcome
        have hsecond := (h _ hback hm.closed hknown (hprepared.fill hself)).and hstands
        refine .step position_eq (.step (rewind_eq good.inside) ((hsecond.imp_right ?_).bind ?_))
        · exact fun halt _ ⟨_, hne⟩ he => absurd he hne
        · rintro v built ⟨hbuilt, -⟩
          refine .step (jump_eq hm.good.inside) (.pure ⟨hbuilt.closed, fun t ht => ?_⟩)
          exact hself.trans (hbuilt.fills t ht)

/-! ## Parsers without parts -/

theorem Run.Revisited.leaf {after : Run V} (closed : after.memo.Closed g text)
    (h : run.memo.Fills (fun _ => False) after.memo)
    (hleaf : ∀ t, Parsed g text p run.position t → t.absorbed g = []) :
    run.Revisited g text p (fun t k => k ∈ t.absorbed g) after := by
  refine ⟨closed, fun t ht => h.congr fun k _ => ?_⟩
  simp only [hleaf t ht, List.not_mem_nil]

theorem silent_rebuilds {r : RuleId} {v : V} {b : Body} :
    Rebuilds g text (.silent r v) b (secondPass g text limit level (.silent r v)) := by
  intro run good closed hknown _
  apply ((accept_visits limit).visits r run good closed).bind
  intro x after hm
  have hnothing := (hm.fills_self closed (closed.prepared hknown)).nothing_of_known hknown
  cases x with
  | false => exact .throw trivial
  | true => exact .pure (.leaf hm.closed hnothing fun t ht => by cases ht; simp)

theorem character_rebuilds {r : RuleId} {embed : Char → V} {b : Body} :
    Rebuilds g text (.character r embed) b (secondPass g text limit level (.character r embed)) := by
  intro run good closed hknown _
  have hnext : Ensures (next text) run (fun _ after => after.memo = run.memo) fun _ _ => True := by
    unfold next
    cases hc : text.char? run.position with
    | none => exact .step (advance_eq_none hc) (.step position_eq (.throw trivial))
    | some c => exact .step (advance_eq_some hc) (.pure rfl)
  refine hnext.bind fun c after hmemo => .pure (.leaf (hmemo ▸ closed) (hmemo ▸ .refl) fun t ht => ?_)
  cases ht
  simp

theorem characters_rebuilds {r : RuleId} {embed : List Char → V} {b : Body} :
    Rebuilds g text (.characters r embed) b (secondPass g text limit level (.characters r embed)) := by
  intro run good closed hknown _
  apply Ensures.step position_eq
  apply ((accept_visits limit).visits r run good closed).bind
  intro x after hm
  have hnothing := (hm.fills_self closed (closed.prepared hknown)).nothing_of_known hknown
  cases x with
  | false => exact .throw trivial
  | true =>
      apply Ensures.step position_eq
      cases text.substring run.position after.position with
      | error => exact .throw trivial
      | ok cs => exact .pure (.leaf hm.closed hnothing fun t ht => by cases ht; simp)

/-! ## Parsers with parts -/

/-- The run `after` comes from `run` by both passes, with a value. -/
structure Run.Retraced (g : Grammar V) (text : Buffer) (p : Parser V) (run : Run V) (t : ParseTree V) (v : V)
    (after : Run V) : Prop extends run.Built g text p t v after where
  closed : after.memo.Closed g text
  fills : run.memo.Fills (fun k => k = ⟨p.rule, run.position⟩ ∨ k ∈ t.absorbed g) after.memo

/-- The run `after` comes from `run` by both passes, with a rejection. -/
structure Run.Declined (g : Grammar V) (text : Buffer) (p : Parser V) (run after : Run V) : Prop
    extends run.Refused g text p after where
  closed : after.memo.Closed g text
  fills : run.memo.Fills (· = ⟨p.rule, run.position⟩) after.memo

/-- From where the body is prepared, the act retraces the parser or is declined. -/
def Retraces (g : Grammar V) (text : Buffer) (p : Parser V) (act : Engine V V) : Prop :=
  ∀ run : Run V, run.Good g text → run.memo.Closed g text →
    run.memo.Prepared g text (g.body p.rule) run.position →
    Ensures act run (fun v after => ∃ t, run.Retraced g text p t v after)
      fun halt after => halt = .failed .rejected → run.Declined g text p after

theorem Retraces.gives {act : Engine V V} (h : Retraces g text p act) (good : run.Good g text)
    (closed : run.memo.Closed g text) (hb : run.memo.Prepared g text (g.body p.rule) run.position) :
    Ensures act run (fun v after => ∃ t, run.Retraced g text p t v after) fun _ _ => True :=
  (h run good closed hb).imp_right fun _ _ _ => trivial

theorem Follows.retraces {act : Engine V V} (h : Follows g text p act) (hr : Revisits g text p act) :
    Retraces g text p act := by
  intro run good closed hprepared
  apply ((h run good).and (hr run good closed hprepared)).imp
  · rintro v after ⟨⟨t, ht⟩, hfilled⟩
    exact ⟨t, ht, hfilled.closed, hfilled.fills t ht.parsed⟩
  · rintro halt after ⟨hrefused, hfilled⟩ he
    obtain ⟨hclosed, hfills⟩ := hfilled he
    exact ⟨hrefused he, hclosed, hfills⟩

theorem Grammar.sequence_parts {r : RuleId} (h : g.kind r = .sequence) :
    Body.sequence ((g.body r).parts r) = g.body r := by
  unfold Grammar.kind at h
  cases hb : g.body r with
  | sequence => rfl
  | _ => simp [hb, Body.kind] at h

theorem Grammar.parts_eq_singleton {r : RuleId} (h : g.kind r ≠ .sequence) : (g.body r).parts r = [r] := by
  unfold Grammar.kind at h
  cases hb : g.body r with
  | sequence => simp [hb, Body.kind] at h
  | _ => rfl

/-- A part of a sequence is prepared, and known unless it is absorbed. -/
theorem Memo.Prepared.part {m : Memo} (xs : List RuleId) {rest : List RuleId} {s q : Nat}
    (closed : m.Closed g text)
    (h : m.Prepared g text (.sequence (xs ++ (g.body p.rule).parts p.rule ++ rest)) s)
    (hxs : Derives g text (.sequence xs) s (.accepted q)) :
    m.Prepared g text (g.body p.rule) q ∧ (g.kind p.rule ≠ .sequence → m.Knows ⟨p.rule, q⟩) := by
  have hparts : m.Prepared g text (.sequence ((g.body p.rule).parts p.rule)) q :=
    h.mono rfl fun k hk => (hk.append_right hxs).append_left
  have hknows : g.kind p.rule ≠ .sequence → m.Knows ⟨p.rule, q⟩ := by
    intro hkind
    rw [Grammar.parts_eq_singleton hkind] at hparts
    exact hparts _ ⟨rfl, .sequence_head⟩
  refine ⟨?_, hknows⟩
  by_cases hkind : g.kind p.rule = .sequence
  · rwa [Grammar.sequence_parts hkind] at hparts
  · exact closed.prepared (hknows hkind)

section

variable {a c item : Parser V} {r : RuleId} {act act' : Engine V V}

theorem pair_rebuilds {label combine} (hg : g.Aligned) (ha : a.Aligned g)
    (hra : Retraces g text a act) (hrc : Retraces g text c act') (good : run.Good g text)
    (closed : run.memo.Closed g text)
    (hb : run.memo.Prepared g text
      (.sequence ((g.body a.rule).parts a.rule ++ (g.body c.rule).parts c.rule)) run.position) :
    Ensures (do let x ← act; let y ← act'; perform label; return combine x y) run
      (fun _ after => run.Revisited g text (.pair r a c label combine) (fun t k => k ∈ t.absorbed g) after)
      fun _ _ => True := by
  obtain ⟨hprepared, hknown⟩ := Memo.Prepared.part [] closed hb .sequence_nil
  apply (hra.gives good closed hprepared).bind
  rintro x mid ⟨ta, hta⟩
  have hma := Derives.parts_iff.mpr (hta.parsed.yields.matches hg ha)
  have hrest := hb
  rw [← List.append_nil (_ ++ _)] at hrest
  obtain ⟨-, hknown'⟩ := Memo.Prepared.part _ closed hrest hma
  obtain ⟨hprepared', -⟩ := Memo.Prepared.part _ hta.closed (hrest.fill hta.fills) hma
  rw [hta.stop] at hprepared'
  apply (hrc.gives hta.good hta.closed hprepared').bind
  rintro y after ⟨tc, htc⟩
  refine .step perform_eq (.pure ⟨htc.closed, fun t ht => ?_⟩)
  cases ht with
  | pair ha' hc' =>
      cases hta.parsed.unique ha'
      have hc := htc.parsed
      rw [← hta.stop] at hc
      cases hc.unique hc'
      apply (hta.fills.trans htc.fills).congr
      intro k hk
      rw [ha'.mem_absorbed_pair hc', ← hta.stop]
      -- a part that is no sequence is known already
      have hself : ∀ {x : Parser V} {s}, (g.kind x.rule ≠ .sequence → run.memo.Knows ⟨x.rule, s⟩) →
          (k = ⟨x.rule, s⟩ ↔ g.kind x.rule = .sequence ∧ k = ⟨x.rule, s⟩) := by
        intro x s hx
        refine (and_iff_right_of_imp ?_).symm
        rintro rfl
        by_contra hkind
        exact hk (hx hkind)
      exact or_congr (or_congr (hself hknown) Iff.rfl) (or_congr (hself hknown') Iff.rfl)

/-- The act retraces whatever parser the slot stands for, where its rule is known. -/
def SlotRetraces (g : Grammar V) (text : Buffer) (slot : Nat) (act : Engine V V) : Prop :=
  ∀ run : Run V, run.Good g text → run.memo.Closed g text →
    (∀ p, g.parserTarget slot = some p → run.memo.Knows ⟨p.rule, run.position⟩) →
    Ensures act run (fun v after => ∃ p, g.parserTarget slot = some p ∧ ∃ t, run.Retraced g text p t v after)
      fun halt after => halt = .failed .rejected →
        ∃ p, g.parserTarget slot = some p ∧ run.Declined g text p after

theorem firstOf_rebuilds {parse : Nat → Engine V V} {slots : List Nat} {alternatives : List Alternative}
    (hg : g.Aligned) (hf : List.Forall₂ g.SameTarget slots alternatives)
    (h : ∀ slot, SlotRetraces g text slot (parse slot)) (good : run.Good g text)
    (closed : run.memo.Closed g text) (hb : run.memo.Prepared g text (.choice alternatives) run.position) :
    Ensures (firstOf parse slots) run
      (fun _ after => run.Revisited g text (.choice r slots) (fun t k => k ∈ t.absorbed g) after)
      fun _ _ => True := by
  induction hf generalizing run with
  | nil => exact .throw trivial
  | @cons slot x slots rest hsame _ ih =>
      have htarget : ∀ p, g.parserTarget slot = some p → g.alternativeTarget x = some p.rule :=
        fun p hp => by rw [hsame, hp]; rfl
      have hknown : ∀ p, g.parserTarget slot = some p → run.memo.Knows ⟨p.rule, run.position⟩ :=
        fun p hp => hb _ ⟨rfl, .choice_head (htarget p hp)⟩
      apply (attempt_ensures (h slot run good closed hknown)).bind
      intro y mid hy
      cases y with
      | some v =>
          obtain ⟨p, hp, t, ht⟩ := hy
          refine .pure ⟨ht.closed, fun t' ht' => ?_⟩
          cases ht' with
          | choice_first hs ha =>
              cases hp.symm.trans hs
              cases ht.parsed.unique ha
              exact (ht.fills.of_known (hknown p hp)).congr fun k _ => by simp
          | choice_next hs hn _ =>
              cases hp.symm.trans hs
              exact absurd hn ht.parsed.not_yields_none
      | none =>
          obtain ⟨p, hp, hd⟩ := hy
          have hnothing := hd.fills.nothing_of_known (hknown p hp)
          have hm : Matches g text p.rule run.position .rejected := hd.yields.matches hg (hg slot p hp)
          have hrest : mid.memo.Prepared g text (.choice rest) mid.position := by
            rw [hd.position]
            exact (hb.mono rfl fun _ => .choice_tail (htarget p hp) hm).fill hnothing
          refine (ih hd.good hd.closed hrest).imp_left fun v after ha => ⟨ha.closed, fun t' ht' => ?_⟩
          cases ht' with
          | choice_first hs ha' =>
              cases hp.symm.trans hs
              exact absurd hd.yields ha'.not_yields_none
          | choice_next _ _ ht =>
              have hfills := ha.fills _ (hd.position ▸ ht)
              exact (hnothing.trans hfills).congr fun k _ => by simp [ht.absorbed_eq]

theorem gather_rebuilds (hg : g.Aligned) (hi : item.Aligned g) (h : Retraces g text item act)
    (good : run.Good g text) (closed : run.memo.Closed g text)
    (hb : run.memo.Prepared g text (.star item.rule) run.position) :
    Ensures (gather act limit) run
      (fun _ after => ∀ r collect, run.Revisited g text (.star r item collect)
        (fun t k => k ∈ t.absorbed g) after)
      fun _ _ => True := by
  induction limit generalizing run with
  | zero => exact .throw trivial
  | succ limit ih =>
      have hknown : run.memo.Knows ⟨item.rule, run.position⟩ := hb _ ⟨rfl, .operand rfl⟩
      apply (attempt_ensures (h run good closed (closed.prepared hknown))).bind
      intro x mid hx
      cases x with
      | some v =>
          obtain ⟨t, ht⟩ := hx
          have hone := ht.fills.of_known hknown
          have hm := ht.parsed.yields.matches hg hi
          have hrest : mid.memo.Prepared g text (.star item.rule) mid.position := by
            rw [← ht.stop]
            exact (hb.mono rfl fun _ => .star_tail hm).fill hone
          apply (ih ht.good ht.closed hrest).bind
          refine fun xs after hafter => .pure fun r collect => ⟨(hafter r collect).closed, fun t' ht' => ?_⟩
          cases ht' with
          | star_more hi' hts =>
              cases ht.parsed.unique hi'
              have hfills := (hafter r _).fills _ (ht.stop ▸ hts)
              exact (hone.trans hfills).congr fun k _ => by simp [hts.absorbed_eq]
          | star_stop hn => exact absurd hn ht.parsed.not_yields_none
      | none =>
          have hnothing := hx.fills.nothing_of_known hknown
          refine .pure fun r collect => ⟨hx.closed, fun t' ht' => ?_⟩
          cases ht' with
          | star_more hi' _ => exact absurd hx.yields hi'.not_yields_none
          | star_stop => exact hnothing.congr fun k _ => by simp

theorem plus_rebuilds {collect} (hg : g.Aligned) (hi : item.Aligned g) (h : Retraces g text item act)
    (good : run.Good g text) (closed : run.memo.Closed g text)
    (hb : run.memo.Prepared g text (.plus item.rule) run.position) :
    Ensures (do let x ← act; let xs ← gather act limit; return collect (x :: xs)) run
      (fun _ after => run.Revisited g text (.plus r item collect) (fun t k => k ∈ t.absorbed g) after)
      fun _ _ => True := by
  have hknown : run.memo.Knows ⟨item.rule, run.position⟩ := hb _ ⟨rfl, .operand rfl⟩
  apply (h.gives good closed (closed.prepared hknown)).bind
  rintro x mid ⟨t, ht⟩
  have hone := ht.fills.of_known hknown
  have hm := ht.parsed.yields.matches hg hi
  have hrest : mid.memo.Prepared g text (.star item.rule) mid.position := by
    rw [← ht.stop]
    exact (hb.mono rfl fun _ => .plus_tail hm).fill hone
  apply (gather_rebuilds hg hi h ht.good ht.closed hrest).bind
  refine fun xs after hafter => .pure ⟨(hafter r collect).closed, fun t' ht' => ?_⟩
  cases ht' with
  | plus hi' hts =>
      cases ht.parsed.unique hi'
      have hfills := (hafter r _).fills _ (ht.stop ▸ hts)
      exact (hone.trans hfills).congr fun k _ => by simp [hts.absorbed_eq]

theorem option_rebuilds {embed} (h : Retraces g text item act) (good : run.Good g text)
    (closed : run.memo.Closed g text)
    (hb : run.memo.Prepared g text (.option item.rule) run.position) :
    Ensures (do return embed (← attempt act)) run
      (fun _ after => run.Revisited g text (.option r item embed) (fun t k => k ∈ t.absorbed g) after)
      fun _ _ => True := by
  have hknown : run.memo.Knows ⟨item.rule, run.position⟩ := hb _ ⟨rfl, .operand rfl⟩
  apply (attempt_ensures (h run good closed (closed.prepared hknown))).bind
  intro x after hx
  cases x with
  | some v =>
      obtain ⟨t, ht⟩ := hx
      refine .pure ⟨ht.closed, fun t' ht' => ?_⟩
      cases ht' with
      | option_some hi' =>
          cases ht.parsed.unique hi'
          exact (ht.fills.of_known hknown).congr fun k _ => by simp
      | option_none hn => exact absurd hn ht.parsed.not_yields_none
  | none =>
      refine .pure ⟨hx.closed, fun t' ht' => ?_⟩
      cases ht' with
      | option_some hi' => exact absurd hx.yields hi'.not_yields_none
      | option_none => exact (hx.fills.nothing_of_known hknown).congr fun k _ => by simp

end

/-! ## All parsers -/

theorem secondPass_rebuilds {b : Body} (hf : p.Fits g b) (hg : g.Aligned)
    (hslots : ∀ slot, SlotRetraces g text slot (parseSlot g text limit level slot)) :
    Rebuilds g text p b (secondPass g text limit level p) := by
  have retraces : ∀ {q : Parser V}, q.Aligned g →
      Rebuilds g text q (g.body q.rule) (secondPass g text limit level q) →
      Retraces g text q (bothPasses g text limit level q) := by
    intro q hq h
    have hslots' : ∀ slot, SlotFollows g text slot (parseSlot g text limit level slot) := parseSlot_follows hg
    exact (bothPasses_follows hg hq (secondPass_constructs hg hq hslots')).retraces
      (bothPasses_revisits hg hq h)
  induction hf with
  | silent => exact silent_rebuilds
  | character => exact character_rebuilds
  | characters => exact characters_rebuilds
  | pair ha hb iha ihb =>
      exact fun run good closed _ hprepared =>
        pair_rebuilds hg ha (retraces ha iha) (retraces hb ihb) good closed hprepared
  | choice h =>
      exact fun run good closed _ hprepared => firstOf_rebuilds hg h hslots good closed hprepared
  | star hi ih =>
      exact fun run good closed _ hprepared =>
        (gather_rebuilds hg hi (retraces hi ih) good closed hprepared).bind fun xs after h => .pure (h _ _)
  | plus hi ih =>
      exact fun run good closed _ hprepared => plus_rebuilds hg hi (retraces hi ih) good closed hprepared
  | option hi ih =>
      exact fun run good closed _ hprepared => option_rebuilds (retraces hi ih) good closed hprepared
  | map hi ih =>
      intro run good closed hknown hprepared
      apply (ih run good closed hknown hprepared).bind
      intro v after h
      refine .step perform_eq (.pure ⟨h.closed, fun t ht => ?_⟩)
      cases ht with
      | map hi' => exact (h.fills _ hi').congr fun k _ => by simp
  | spanned hi ih =>
      intro run good closed hknown hprepared
      apply Ensures.step position_eq
      apply (ih run good closed hknown hprepared).bind
      intro v after h
      apply Ensures.step position_eq
      cases Span.make text run.position after.position with
      | error => exact .throw trivial
      | ok span =>
          refine .pure ⟨h.closed, fun t ht => ?_⟩
          cases ht with
          | spanned hi' => exact (h.fills _ hi').congr fun k _ => by simp
  | deferred hsame =>
      intro run good closed _ hprepared
      have hknown : ∀ p, g.parserTarget _ = some p → run.memo.Knows ⟨p.rule, run.position⟩ :=
        fun p hp => hprepared _ ⟨rfl, .choice_head (by rw [hsame, hp]; rfl)⟩
      apply (hslots _ run good closed hknown).imp
      · rintro v after ⟨p, hp, t, ht⟩
        refine ⟨ht.closed, fun t' ht' => ?_⟩
        cases ht' with
        | deferred hs ha =>
            cases hp.symm.trans hs
            cases ht.parsed.unique ha
            exact (ht.fills.of_known (hknown p hp)).congr fun k _ => by simp
      · exact fun _ _ _ => trivial

theorem parseSlot_retraces (hg : g.Aligned) (slot : Nat) :
    SlotRetraces g text slot (parseSlot g text limit level slot) := by
  induction level generalizing slot with
  | zero => exact fun run _ _ _ => .throw nofun
  | succ level ih =>
      intro run good closed hknown
      unfold parseSlot
      refine (((resolve_ensures (Grammar.resolveParser_finds slot) good).and (resolve_quiet run)).imp_right
        ?_).bind ?_
      · rintro halt _ ⟨⟨⟨name, rfl⟩, -⟩, -⟩ he
        cases he
      · rintro p found ⟨⟨htarget, hfound, hpos, hmemo⟩, hquiet⟩
        have hp := hg slot p htarget
        have hfollows : Follows g text p (bothPasses g text limit level p) :=
          bothPasses_follows hg hp (secondPass_constructs hg hp (parseSlot_follows hg))
        have hretraces := hfollows.retraces (bothPasses_revisits hg hp (secondPass_rebuilds hp hg ih))
        have hprepared := closed.prepared (hknown p htarget)
        rw [← hmemo, ← hpos] at hprepared
        apply (hretraces found hfound (hmemo ▸ closed) hprepared).imp
        · rintro v after ⟨t, ht⟩
          have hactions : after.actions = t.actions.reverse ++ run.actions :=
            ht.actions.trans (congrArg _ hquiet)
          have hbuilt : run.Built g text p t v after :=
            ⟨hpos ▸ ht.parsed, ht.value, ht.stop, hactions, ht.good⟩
          exact ⟨p, htarget, t, hbuilt, ht.closed, hpos ▸ hmemo ▸ ht.fills⟩
        · intro halt after hd he
          obtain ⟨⟨hy, hpos', hactions, hgood⟩, hclosed, hfills⟩ := hd he
          have hrefused : run.Refused g text p after :=
            ⟨hpos ▸ hy, hpos'.trans hpos, hactions.trans hquiet, hgood⟩
          exact ⟨p, htarget, hrefused, hclosed, hpos ▸ hmemo ▸ hfills⟩

/-! ## After recognition -/

/-- A parse that gives a value has recognized its rule, and then filled in the absorbed rules of its
tree. -/
theorem parseAt_fills {fuel : Nat} (hg : g.Aligned) (hp : p.Aligned g) (good : run.Good g text)
    (closed : run.memo.Closed g text) :
    Ensures (parseAt g text fuel p) run
      (fun _ after => ∃ mid, accept g text fuel p.rule run = .ok true mid ∧
        ∀ t, Parsed g text p run.position t → mid.memo.Fills (fun k => k ∈ t.absorbed g) after.memo)
      fun _ _ => True := by
  apply Ensures.step position_eq
  cases hr : accept g text fuel p.rule run with
  | error halt mid => exact .fail (bind_of_error hr) trivial
  | ok x mid =>
      apply Ensures.step hr
      have hm := ((accept_visits fuel).visits p.rule run good closed).of_ok hr
      cases x with
      | false => exact .step (rewind_eq good.inside) (.throw trivial)
      | true =>
          refine .step position_eq (.step (rewind_eq good.inside) ?_)
          have hknown : mid.memo.Knows ⟨p.rule, run.position⟩ := (hm.fills.knows _).mpr (.inr .refl)
          have hback : (mid.moveTo run.position).Good g text := hm.good.moveTo good.inside
          have hsecond : Rebuilds g text p (g.body p.rule) (construct g text fuel p) :=
            secondPass_rebuilds hp hg (parseSlot_retraces hg)
          apply (hsecond _ hback hm.closed hknown (hm.closed.prepared hknown)).bind
          intro v built hbuilt
          exact .step (jump_eq hm.good.inside) (.pure ⟨mid, rfl, hbuilt.fills⟩)

/-! ## Counting -/

namespace Memo

variable {m m' : Memo}

theorem Fills.size_eq {ks : Finset Key} (h : m.Fills (· ∈ ks) m') :
    m'.size = m.size + {k ∈ ks | ¬ m.Knows k}.card := by
  have hunion : m'.known = m.known ∪ {k ∈ ks | ¬ m.Knows k} := by
    ext k
    rw [mem_known, h.knows, Finset.mem_union, mem_known, Finset.mem_filter, or_and_left, and_iff_left (em _)]
  have hdisjoint : Disjoint m.known {k ∈ ks | ¬ m.Knows k} := by
    rw [Finset.disjoint_left]
    intro k hk hnew
    exact (Finset.mem_filter.mp hnew).2 (mem_known.mp hk)
  rw [← card_known, ← card_known, hunion, Finset.card_union_of_disjoint hdisjoint]

theorem Fills.entries_eq {ks : Finset Key} (h : m.Fills (· ∈ ks) m') (hm : m.Balanced [])
    (hm' : m'.Balanced []) : m'.stats.entries = m.stats.entries + {k ∈ ks | ¬ m.Knows k}.card := by
  rw [hm'.entries, hm.entries, h.size_eq]

theorem Balanced.misses_eq (h : m.Balanced []) : m.stats.lookups - m.stats.hits = m.stats.entries := by
  rw [h.lookups, List.length_nil, Nat.add_zero, Nat.add_sub_cancel_left]

end Memo

/-- What the rule accepts has a tree. -/
theorem Matches.exists_parsed {s e : Nat} (hg : g.Aligned) (hp : p.Aligned g) (hs : s ≤ text.length)
    (hm : Matches g text p.rule s (.accepted e)) : ∃ t, Parsed g text p s t := by
  obtain ⟨y, hy, -⟩ := hp.parses hg (Nat.lt_succ_self _) hs hm
  cases y with
  | some x =>
      obtain ⟨t, ht, -⟩ := hy.exists_parsed hg hp hs
      exact ⟨t, ht⟩
  | none => cases hy.outcome_eq hg hp hm

theorem accept_unique {fuel fuel' : Nat} {r : RuleId} {x x' : Bool} {mid mid' : Run V}
    (h : accept g text fuel r run = .ok x mid) (h' : accept g text fuel' r run = .ok x' mid') :
    x = x' ∧ mid = mid' := by
  have hle := accept_refines g text (Nat.le_max_left fuel fuel') r run (.of_ok h)
  have hle' := accept_refines g text (Nat.le_max_right fuel fuel') r run (.of_ok h')
  cases (hle.trans h).symm.trans (hle'.trans h')
  exact ⟨rfl, rfl⟩

/-- Where recognition with a new table has accepted, the parse gives a value, and besides what recognition
has evaluated it evaluates the absorbed rules of its tree that are not known yet, each once. So the
construction finds everything in the table if and only if there are none of those. -/
theorem construction_evaluates_absorbed {w : Workspace V} {known} (assembled : Assembled w known)
    (hp : p ∈ known) {s : Nat} (inside : s ≤ text.length) {m : Memo}
    (fresh : m = .empty .full ∨ m = .journaling .full) {fuel : Nat} {recognized : Run V}
    (accepted : accept w.grammar text fuel p.rule (.begin s m w.bindings) = .ok true recognized) :
    ∃ t, Parsed w.grammar text p s t ∧
      let new : Finset Memo.Key := {k ∈ (t.absorbed w.grammar).toFinset | ¬ recognized.memo.Knows k}
      let parse fuel := parseAt w.grammar text fuel p
      let run := Run.begin s m w.bindings
      (∃ fuel, Settled (parse fuel run)) ∧
      ∀ fuel, Settled (parse fuel run) → Ensures (parse fuel) run
        (fun v after => v = t.value ∧ (∀ k, after.memo.Knows k ↔ recognized.memo.Knows k ∨ k ∈ new) ∧
          after.memo.stats.entries = recognized.memo.stats.entries + new.card ∧
          after.memo.stats.lookups - after.memo.stats.hits =
            recognized.memo.stats.lookups - recognized.memo.stats.hits + new.card ∧
          (after.memo.stats.entries = recognized.memo.stats.entries ↔
            ∀ k ∈ t.absorbed w.grammar, recognized.memo.Knows k))
        fun _ _ => False := by
  have hg := assembled.consistent.aligned_slots
  have hpa := assembled.consistent.aligned hp
  have begun : (Run.begin s m w.bindings).Finished w.grammar text :=
    .fresh inside assembled.consistent.sound fresh
  have good := begun.orderly.good
  have hm := ((accept_recognizes fuel p.rule _ good).of_ok accepted).outcome
  obtain ⟨t, ht⟩ := hm.exists_parsed hg hpa inside
  refine ⟨t, ht, ?_⟩
  intro new parse run
  constructor
  · obtain ⟨more, hl, -⟩ := w.grammar.exists_ample text 0
    obtain ⟨v, after, hok, -⟩ := (ht.yields.parseAt_ample hg hpa good hl run good rfl).exists_ok
    exact ⟨more, .of_ok hok⟩
  · intro fuel' hs
    obtain ⟨after, -, ⟨v, hok, hv⟩ | ⟨-, hnone, -⟩⟩ := ht.yields.parseAt_settled hg hpa good hs
    · refine .done hok ?_
      obtain ⟨mid, hmid, hfills⟩ := (parseAt_fills hg hpa good (.of_fresh fresh)).of_ok hok
      obtain ⟨-, rfl⟩ := accept_unique accepted hmid
      have hfills : recognized.memo.Fills (· ∈ (t.absorbed w.grammar).toFinset) after.memo :=
        (hfills t ht).congr fun k _ => List.mem_toFinset.symm
      have hrecognized := (begun.accepted accepted).orderly.balanced
      have hparsed := (begun.parsed hok).orderly.balanced
      have hentries : after.memo.stats.entries = recognized.memo.stats.entries + new.card :=
        hfills.entries_eq hrecognized hparsed
      have hvalue : v = t.value := (congrArg Prod.fst (Option.some.inj hv)).symm
      refine ⟨hvalue, fun k => ?_, hentries, ?_, ?_⟩
      · rw [hfills.knows, Finset.mem_filter, or_and_left, and_iff_left (em _)]
      · rw [hparsed.misses_eq, hrecognized.misses_eq]
        exact hentries
      · rw [hentries, Nat.add_eq_left, Finset.card_eq_zero, Finset.filter_eq_empty_iff]
        simp only [List.mem_toFinset, not_not]
    · cases hnone

/-- The rule of the sequence before the closing parenthesis, and those of the `λ` with its letters, with the
dot and without. -/
theorem construction_evaluates_absorbed_application :
    let g := Lambda.workspace.grammar
    let text := Buffer.load 0 "(λx.x)y"
    ∃ t recognized after,
      accept g text 40 Lambda.root.rule (.begin 0 (.empty .full) .empty) = .ok true recognized ∧
      parseAt g text 40 Lambda.root (.begin 0 (.empty .full) .empty) = .ok t.value after ∧
      Parsed g text Lambda.root 0 t ∧
      {k ∈ (t.absorbed g).toFinset | ¬ recognized.memo.Knows k}.card = 3 ∧
      recognized.memo.stats.entries = 39 ∧ after.memo.stats.entries = 42 := by
  intro g text
  obtain ⟨known, assembled, hroot⟩ := Lambda.assembled
  have recognizes : Ensures (accept g text 40 Lambda.root.rule) (.begin 0 (.empty .full) .empty)
      (fun x recognized => x = true ∧ recognized.memo.stats.entries = 39) fun _ _ => False := by
    decide +kernel
  have parses : Ensures (parseAt g text 40 Lambda.root) (.begin 0 (.empty .full) .empty)
      (fun _ after => after.memo.stats.entries = 42) fun _ _ => False := by
    decide +kernel
  obtain ⟨_, recognized, haccept, rfl, hrecognized⟩ := recognizes.exists_ok
  obtain ⟨v, after, hparse, hafter⟩ := parses.exists_ok
  obtain ⟨t, ht, -, hall⟩ :=
    construction_evaluates_absorbed assembled hroot (Nat.zero_le _) (.inl rfl) haccept
  obtain ⟨rfl, -, hentries, -⟩ := (hall 40 (.of_ok hparse)).of_ok hparse
  refine ⟨t, recognized, after, haccept, hparse, ht, ?_, hrecognized, hafter⟩
  rw [hrecognized, hafter] at hentries
  have hcount : 39 + 3 = 39 + _ := hentries
  exact (Nat.add_left_cancel hcount).symm

/-- With `ab` for `a` and then `b`, and `abc` for `ab` and then `c`, a parse of `abc` evaluates the rule of
`ab` in its construction. -/
theorem construction_evaluates_chain :
    let chain : Assembly Unit (Parser Unit) := do
      let a ← Assembly.literalParser "a" ()
      let b ← Assembly.literalParser "b" ()
      let c ← Assembly.literalParser "c" ()
      let ab ← Assembly.pair a b "pair" fun _ _ => ()
      Assembly.pair ab c "pair" fun _ _ => ()
    let text := Buffer.load 0 "abc"
    ∃ p w, chain .empty = .ok p w ∧ (∃ known, Assembled w known ∧ p ∈ known) ∧
      ∃ recognized after,
        accept w.grammar text 40 p.rule (.begin 0 (.empty .full) w.bindings) = .ok true recognized ∧
        parseAt w.grammar text 40 p (.begin 0 (.empty .full) w.bindings) = .ok () after ∧
        recognized.memo.stats = ⟨4, 0, 4⟩ ∧ after.memo.stats = ⟨13, 8, 5⟩ := by
  intro chain text
  have assembled : Ensures chain .empty (fun p w => ∃ known, Assembled w known ∧ p ∈ known)
      fun _ _ => True := by
    refine Assembled.empty.literalParser_ensures.bind fun a _ h => ?_
    refine h.literalParser_ensures.bind fun b _ h => ?_
    refine h.literalParser_ensures.bind fun c _ h => ?_
    refine (Ensures.intro fun _ _ hok => h.pair (by simp) (by simp) hok).bind fun ab _ h => ?_
    exact .intro fun _ _ hok => ⟨_, h.pair (by simp) (by simp) hok, List.mem_cons_self⟩
  have runs : Ensures chain .empty
      (fun p w => Ensures (accept w.grammar text 40 p.rule) (.begin 0 (.empty .full) w.bindings)
          (fun x recognized => x = true ∧ recognized.memo.stats = ⟨4, 0, 4⟩) (fun _ _ => False) ∧
        Ensures (parseAt w.grammar text 40 p) (.begin 0 (.empty .full) w.bindings)
          (fun _ after => after.memo.stats = ⟨13, 8, 5⟩) fun _ _ => False)
      fun _ _ => False := by decide +kernel
  obtain ⟨p, w, hchain, haccepts, hparses⟩ := runs.exists_ok
  obtain ⟨_, recognized, haccept, rfl, hrecognized⟩ := haccepts.exists_ok
  obtain ⟨_, after, hparse, hafter⟩ := hparses.exists_ok
  exact ⟨p, w, hchain, assembled.of_ok hchain, recognized, after, haccept, hparse, hrecognized, hafter⟩

end Packrat
