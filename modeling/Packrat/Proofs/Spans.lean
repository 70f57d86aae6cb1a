import Packrat.Proofs.Construction

/-!
# Construction consumes what recognition has matched

The second pass of a parser ends where its rule ends, on its own, without the jump that a parse makes
afterwards (`construct_stops_with_rule`). So the spans that are embedded in values are those of the
matches that the values were built from.
-/

namespace Packrat

open Engine

variable {V : Type} {g : Grammar V} {text : Buffer} {run : Run V} {p : Parser V}

/-! ## Construction on its own -/

theorem Matches.construct_settles {e} (hg : g.Aligned) (hp : p.Aligned g) (good : run.Good g text)
    (hm : Matches g text p.rule run.position (.accepted e)) :
    ∃ fuel, Settled (construct g text fuel p run) := by
  obtain ⟨fuel, hl, -⟩ := g.exists_ample text 0
  obtain ⟨v, -, hgives⟩ := (hp.constructs hg hl good.inside hm).of_accepted hg hp hm
  obtain ⟨v', after, hok, -⟩ := (hgives run good rfl).exists_ok
  exact ⟨fuel, .of_ok hok⟩

theorem Matches.construct_stops {e fuel} (hg : g.Aligned) (hp : p.Aligned g) (good : run.Good g text)
    (hm : Matches g text p.rule run.position (.accepted e))
    (hs : Settled (construct g text fuel p run)) :
    Ensures (construct g text fuel p) run (fun _ after => after.position = e) fun _ _ => False := by
  obtain ⟨more, hl, hle⟩ := g.exists_ample text fuel
  obtain ⟨v, -, hgives⟩ := (hp.constructs hg hl good.inside hm).of_accepted hg hp hm
  obtain ⟨v', after, hok, -, -, hpos⟩ := (hgives run good rfl).exists_ok
  -- a construction that finishes does the same with more fuel
  exact .done ((construct_refines g text hle p run hs).symm.trans hok) hpos

/-! ## Spans in a tree -/

theorem Buffer.chars_append_rest {b : Buffer} {s e : Nat} (hs : s ≤ e) (he : e ≤ b.length) :
    Span.chars ⟨b, s, e⟩ ++ b.rest e = b.rest s := by
  have hdrop : b.rest e = (b.rest s).drop (e - s) := by
    rw [Buffer.rest, Buffer.rest, List.drop_drop, Nat.add_sub_cancel' hs]
  simp only [Span.chars, Buffer.slice?, hs, he, and_self, if_true, Option.getD_some]
  rw [hdrop]
  exact List.take_append_drop _ _

namespace ParseTree

/-- Building the node anew from where it starts gives its value and ends where it ends, which is where
the match of its rule ends. -/
structure Exact (g : Grammar V) (text : Buffer) (u : ParseTree V) : Prop where
  rule : Matches g text u.parser.rule u.start (.accepted u.stop)
  construct : ∀ fuel, g.Ample text fuel →
    Gives g text (Engine.construct g text fuel u.parser) u.start u.value u.stop

/-- The node embeds the span that it covers, whose text is what the node consumes. The nodes below it
lie inside that span. -/
structure Embeds (text : Buffer) (embed : V → Span → V) (u : ParseTree V) : Prop where
  value : ∃ part, u.parts = [part] ∧ u.value = embed part.value ⟨text, u.start, u.stop⟩
  consumed : (Span.text ⟨text, u.start, u.stop⟩).toList ++ text.rest u.stop = text.rest u.start
  inside : ∀ n ∈ u.postorder, u.Contains n

end ParseTree

namespace Parsed

variable {s : Nat} {t : ParseTree V}

theorem exact (h : Parsed g text p s t) (hg : g.Aligned) (hp : p.Aligned g) (hs : s ≤ text.length) :
    ∀ u ∈ t.postorder, u.Exact g text := by
  intro u hu
  obtain ⟨hparsed, hin⟩ := h.node u hu
  have haligned := h.node_aligned hg hp u hu
  have hm : Matches g text u.parser.rule u.start (.accepted u.stop) :=
    hparsed.yields.matches hg haligned
  have hstart : u.start ≤ text.length :=
    Nat.le_trans (Nat.le_trans hin.le hin.stop_le) (h.bounds.2 hs)
  refine ⟨hm, fun fuel hl => ?_⟩
  obtain ⟨v, hy, hgives⟩ := (haligned.constructs hg hl hstart hm).of_accepted hg haligned hm
  cases hy.unique hparsed.yields
  exact hgives

theorem embeds {inner embed} (h : Parsed g text (.spanned inner embed) s t) (hs : s ≤ text.length) :
    t.Embeds text embed := by
  have hstart := h.start_eq
  have hstop := h.bounds.2 hs
  refine ⟨?_, ?_, fun n hn => (h.node n hn).2⟩
  · cases h with
    | spanned hi => exact ⟨_, rfl, rfl⟩
  · rw [Span.text, String.toList_ofList]
    exact Buffer.chars_append_rest (hstart ▸ h.bounds.1) hstop

end Parsed

/-! ## Parses -/

/-- Where the rule of a parser matches, construction alone gives a value and ends where the match ends.
So in every parse that gives a value, at any depth, each node that embeds a span embeds the one from
where the node starts to where the match of its rule ends from there. -/
theorem construct_stops_with_rule {w : Workspace V} {known} (assembled : Assembled w known)
    (hp : p ∈ known) (inside : run.position ≤ text.length) (sound : run.bindings.Sound w.grammar)
    (confirmed : run.memo.Confirmed w.grammar text run.bindings) :
    (∀ e, (∃ fuel after, accept w.grammar text fuel p.rule run = .ok true after ∧ after.position = e) →
      (∃ fuel, Settled (construct w.grammar text fuel p run)) ∧
      ∀ fuel, Settled (construct w.grammar text fuel p run) →
        Ensures (construct w.grammar text fuel p) run (fun _ after => after.position = e)
          fun _ _ => False) ∧
    ∀ fuel v after, parseAt w.grammar text fuel p run = .ok v after →
      ∃ t, Parsed w.grammar text p run.position t ∧ t.value = v ∧ t.stop = after.position ∧
        ∀ u ∈ t.postorder, u.Exact w.grammar text ∧
          ∀ inner embed, u.parser = .spanned inner embed → u.Embeds text embed := by
  have hg := assembled.consistent.aligned_slots
  have hpa := assembled.consistent.aligned hp
  have good : run.Good w.grammar text := ⟨inside, sound, (Memo.confirmed_iff_correct sound).mp confirmed⟩
  constructor
  · rintro e ⟨fuel, after, hok, rfl⟩
    have hm : Matches w.grammar text p.rule run.position (.accepted after.position) :=
      ((accept_recognizes fuel p.rule run good).of_ok hok).outcome
    exact ⟨hm.construct_settles hg hpa good, fun fuel hs => hm.construct_stops hg hpa good hs⟩
  · intro fuel v after hok
    obtain ⟨t, ht⟩ := (parseAt_follows hg hpa run good).of_ok hok
    refine ⟨t, ht.parsed, ht.value, ht.stop, fun u hu => ⟨ht.parsed.exact hg hpa inside u hu, ?_⟩⟩
    intro inner embed hu'
    obtain ⟨hparsed, hin⟩ := ht.parsed.node u hu
    rw [hu'] at hparsed
    have hstop := ht.parsed.bounds.2 inside
    exact hparsed.embeds (Nat.le_trans hin.le (Nat.le_trans hin.stop_le hstop))

/-- The span of a term in parentheses, which is inside those. -/
theorem construct_stops_with_rule_parentheses :
    let g := Lambda.workspace.grammar
    let text := Buffer.load 0 "(λx.x)y"
    let embed (_ : Lambda.Piece) (span : Span) : Lambda.Piece := .letters span.chars
    let p : Parser Lambda.Piece := .spanned (.map Lambda.root "same" id) embed
    Ensures (construct g text 40 p) (.begin 1 (.empty .full) .empty) (fun _ after => after.position = 5)
      (fun _ _ => False) ∧
    ∃ t, Parsed g text p 1 t ∧ t.value.toLetters = ['λ', 'x', '.', 'x'] ∧ t.stop = 5 ∧
      t.Embeds text embed := by
  intro g text embed p
  let run : Run Lambda.Piece := .begin 1 (.empty .full) .empty
  obtain ⟨known, assembled, hroot⟩ := Lambda.assembled
  have assembled : Assembled Lambda.workspace (p :: _ :: known) :=
    (assembled.map hroot).spanned List.mem_cons_self
  have inside : run.position ≤ text.length := by decide +kernel
  have h := construct_stops_with_rule assembled List.mem_cons_self inside .empty Memo.Every.empty
  have accepts : Ensures (accept g text 40 p.rule) run (fun x after => x = true ∧ after.position = 5)
      fun _ _ => False := by decide +kernel
  have constructs : Ensures (construct g text 40 p) run (fun _ _ => True) fun _ _ => False := by
    decide +kernel
  have parses : Ensures (parseAt g text 40 p) run
      (fun v after => v.toLetters = ['λ', 'x', '.', 'x'] ∧ after.position = 5) fun _ _ => False := by
    decide +kernel
  obtain ⟨_, after, haccept, rfl, hpos⟩ := accepts.exists_ok
  obtain ⟨_, built, hbuild, -⟩ := constructs.exists_ok
  obtain ⟨v, after', hparse, hv, hstop⟩ := parses.exists_ok
  obtain ⟨t, ht, rfl, ht', hnodes⟩ := h.2 40 v after' hparse
  refine ⟨(h.1 5 ⟨40, after, haccept, hpos⟩).2 40 (.of_ok hbuild), t, ht, hv, ht'.trans hstop, ?_⟩
  exact (hnodes t (ParseTree.mem_postorder.mpr (.inr rfl))).2 _ embed ht.parser_eq

end Packrat
