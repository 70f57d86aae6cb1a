import Packrat.Proofs.Lookups

/-!
# Watching positions

A watched act fails if a position that it moves to, or the one where it ends, lies before the position
where it began or past the end of the text (`Engine.watch`). Recognition and construction in which every
call is watched never fail for that: they come to what they come to unwatched (`accept_shadows`,
`parseAt_shadows`). All that is asked of the memo table is that the matches in it lie in the text.
-/

namespace Packrat

variable {V α β : Type}

/-- The position that an event tells of a move to. -/
def Event.target? : Event → Option Nat
  | .moved p => some p
  | _ => none

namespace Run

/-- The positions moved to after those that `run` tells of, the first first. -/
def movesSince (run after : Run V) : List Nat :=
  (after.events.drop run.events.length).filterMap Event.target?

/-- Between `run` and `after` no position is before that of `run` or past the end of the text. -/
def Stays (text : Buffer) (run after : Run V) : Prop :=
  ∀ p ∈ after.position :: run.movesSince after, run.position ≤ p ∧ p ≤ text.length

instance {text : Buffer} {run after : Run V} : Decidable (run.Stays text after) :=
  inferInstanceAs (Decidable (∀ p ∈ _ :: _, _))

end Run

namespace Engine

variable (g : Grammar V) (text : Buffer)

/-- Carries out an act, which has to be traced, and fails if it strays. -/
def watch (act : Engine V α) : Engine V α := fun run =>
  let after := stateAfter act run
  if run.Stays text after then act run
  else .error (.failed (.cursor (.outOfRange after.position text.length))) after

/-- `accept`, where every call of it is watched. -/
def acceptWatched : Nat → RuleId → Engine V Bool
  | 0, _ => throw .exhausted
  | fuel + 1, r => watch text (acceptBy g text (acceptWatched fuel) fuel r)

/-- `parseSlot`, where every call of it and of `accept` is watched. -/
def parseSlotWatched (limit : Nat) : Nat → Nat → Engine V V
  | 0, _ => throw .exhausted
  | fuel + 1, slot => do
    let p ← resolve (g.resolveParser slot)
    watch text (twoPass text (acceptWatched g text limit) p.rule
      (p.build text (acceptWatched g text limit) (parseSlotWatched limit fuel) limit))

/-- `parseAt`, where it and every call of `parseSlot` and `accept` is watched. -/
def parseAtWatched (fuel : Nat) (p : Parser V) : Engine V V :=
  watch text (twoPass text (acceptWatched g text fuel) p.rule
    (p.build text (acceptWatched g text fuel) (parseSlotWatched g text fuel fuel) fuel))

end Engine

/-! ## Runs with and without a trace -/

/-- The matches in the table lie in the text. -/
def Memo.Inside (text : Buffer) (m : Memo) : Prop :=
  m.Every fun k o => ∀ stop, o = .accepted stop → k.start ≤ stop ∧ stop ≤ text.length

/-- The first run is the second with a trace, which goes on from `past` with no position before `level` or
past the end of the text. -/
structure Traced (text : Buffer) (level : Nat) (past : List Event) (run plain : Run V) : Prop where
  same : { run with trace := plain.trace } = plain
  position : level ≤ run.position ∧ run.position ≤ text.length
  memo : run.memo.Inside text
  trace : ∃ events, run.trace = some (events ++ past) ∧
    ∀ p, .moved p ∈ events → level ≤ p ∧ p ≤ text.length

/-- A result without the events that its state tells of. -/
def untraced : EStateM.Result Halt (Run V) α → EStateM.Result Halt (Run V) α
  | .ok a run => .ok a { run with trace := none }
  | .error halt run => .error halt { run with trace := none }

/-- Two results that are the same but for the states, which are related. -/
inductive Alike {ε σ : Type} (R : σ → σ → Prop) : EStateM.Result ε σ α → EStateM.Result ε σ α → Prop
  | ok {a s s'} (h : R s s') : Alike R (.ok a s) (.ok a s')
  | error {e s s'} (h : R s s') : Alike R (.error e s) (.error e s')

section

variable {ε σ : Type} {R R' : σ → σ → Prop}

theorem Alike.mono {x y : EStateM.Result ε σ α} (h : Alike R x y) (hR : ∀ s s', R s s' → R' s s') :
    Alike R' x y := by
  cases h with
  | ok h => exact .ok (hR _ _ h)
  | error h => exact .error (hR _ _ h)

theorem Alike.stateAfter {act act' : EStateM ε σ α} {s s' : σ} (h : Alike R (act s) (act' s')) :
    R (stateAfter act s) (stateAfter act' s') := by
  unfold Packrat.stateAfter
  generalize act s = x at h
  generalize act' s' = y at h
  cases h with
  | ok h => exact h
  | error h => exact h

theorem Alike.bind {act act' : EStateM ε σ α} {f f' : α → EStateM ε σ β} {s s' : σ}
    (h : Alike R (act s) (act' s'))
    (hf : ∀ a t t', R t t' → Alike R (f a t) (f' a t')) : Alike R ((act >>= f) s) ((act' >>= f') s') := by
  generalize hx : act s = x at h
  generalize hx' : act' s' = x' at h
  cases h with
  | ok h =>
      rw [bind_of_ok hx, bind_of_ok hx']
      exact hf _ _ _ h
  | error h =>
      rw [bind_of_error hx, bind_of_error hx']
      exact .error h

end

namespace Traced

variable {text : Buffer} {level : Nat} {past : List Event} {run plain : Run V}

theorem position_eq (h : Traced text level past run plain) : plain.position = run.position := by
  rw [← h.same]

theorem memo_eq (h : Traced text level past run plain) : plain.memo = run.memo := by
  rw [← h.same]

theorem bindings_eq (h : Traced text level past run plain) : plain.bindings = run.bindings := by
  rw [← h.same]

theorem observe {e : Event} (h : Traced text level past run plain)
    (he : ∀ p, e = .moved p → level ≤ p ∧ p ≤ text.length) :
    Traced text level past (run.observe e) (plain.observe e) := by
  obtain ⟨events, htrace, hmoves⟩ := h.trace
  refine ⟨?_, h.position, h.memo, e :: events, ?_, fun p hp => ?_⟩
  · rw [← h.same]
    rfl
  · simp only [Run.observe, htrace]
    rfl
  · rcases List.mem_cons.mp hp with hp | hp
    · exact he p hp.symm
    · exact hmoves p hp

theorem moveTo {p : Nat} (h : Traced text level past run plain) (hp : level ≤ p ∧ p ≤ text.length) :
    Traced text level past (run.moveTo p) (plain.moveTo p) := by
  have hmoved : Traced text level past { run with position := p } { plain with position := p } := by
    refine ⟨?_, hp, h.memo, h.trace⟩
    rw [← h.same]
  exact hmoved.observe fun _ he => Event.moved.inj he ▸ hp

theorem remember {m : Memo} (h : Traced text level past run plain) (hm : m.Inside text) :
    Traced text level past { run with memo := m } { plain with memo := m } := by
  refine ⟨?_, h.position, hm, h.trace⟩
  rw [← h.same]

theorem found {b : Bindings V} (h : Traced text level past run plain) :
    Traced text level past { run with bindings := b } { plain with bindings := b } := by
  refine ⟨?_, h.position, h.memo, h.trace⟩
  rw [← h.same]

theorem perform {label : String} (h : Traced text level past run plain) :
    Traced text level past { run with actions := label :: run.actions }
      { plain with actions := label :: plain.actions } := by
  refine ⟨?_, h.position, h.memo, h.trace⟩
  rw [← h.same]

/-- A call begins a level of its own, without a past that counts. -/
theorem exists_enter (h : Traced text level past run plain) :
    ∃ past', run.trace = some past' ∧ Traced text run.position past' run plain := by
  obtain ⟨events, htrace, -⟩ := h.trace
  exact ⟨_, htrace, h.same, ⟨Nat.le_refl _, h.position.2⟩, h.memo, [], htrace, fun _ hp => nomatch hp⟩

theorem leave {past' : List Event} {after after' : Run V} (h : Traced text level past run plain)
    (hpast : run.trace = some past') (ha : Traced text run.position past' after after') :
    Traced text level past after after' := by
  obtain ⟨events, htrace, hmoves⟩ := h.trace
  obtain ⟨new, hnew, hnewmoves⟩ := ha.trace
  have hle : ∀ {p}, run.position ≤ p ∧ p ≤ text.length → level ≤ p ∧ p ≤ text.length := fun hp =>
    ⟨Nat.le_trans h.position.1 hp.1, hp.2⟩
  refine ⟨ha.same, hle ha.position, ha.memo, new ++ events, ?_, fun p hp => ?_⟩
  · cases hpast.symm.trans htrace
    rw [hnew, List.append_assoc]
  · rcases List.mem_append.mp hp with hp | hp
    · exact hle (hnewmoves p hp)
    · exact hmoves p hp

theorem stays {after after' : Run V} (hpast : run.trace = some past)
    (h : Traced text run.position past after after') : run.Stays text after := by
  obtain ⟨new, hnew, hmoves⟩ := h.trace
  have hevents : after.events.drop run.events.length = new.reverse := by
    simp [Run.events, hnew, hpast]
  refine List.forall_mem_cons.mpr ⟨h.position, fun p hp => ?_⟩
  rw [Run.movesSince, hevents] at hp
  obtain ⟨e, he, hep⟩ := List.mem_filterMap.mp hp
  cases e with
  | moved q =>
      cases hep
      exact hmoves p (List.mem_reverse.mp he)
  | evaluated | finished => cases hep

end Traced

theorem Alike.untraced_eq {text : Buffer} {level : Nat} {past : List Event}
    {x y : EStateM.Result Halt (Run V) α} (h : Alike (Traced text level past) x y) :
    untraced x = untraced y := by
  cases h with
  | ok h => rw [← h.same, untraced, untraced]
  | error h => rw [← h.same, untraced, untraced]

/-! ## Watched acts and plain ones -/

/-- From a run with a trace, the first act comes to what the second comes to without one, and strays
neither before the level nor past the end of the text. -/
def Shadows (text : Buffer) (level : Nat) (act act' : Engine V α) : Prop :=
  ∀ past run plain, Traced text level past run plain → Alike (Traced text level past) (act run) (act' plain)

namespace Shadows

variable {g : Grammar V} {text : Buffer} {level : Nat} {act act' : Engine V α}

protected theorem bind {f f' : α → Engine V β} (h : Shadows text level act act')
    (hf : ∀ a, Shadows text level (f a) (f' a)) : Shadows text level (act >>= f) (act' >>= f') :=
  fun past run plain ht => (h past run plain ht).bind fun a => hf a past

theorem mark {f f' : Nat → Engine V β}
    (h : ∀ p, level ≤ p ∧ p ≤ text.length → Shadows text level (f p) (f' p)) :
    Shadows text level (Engine.position >>= f) (Engine.position >>= f') := by
  intro past run plain ht
  rw [bind_of_ok Engine.position_eq, bind_of_ok Engine.position_eq, ht.position_eq]
  exact h run.position ht.position past run plain ht

theorem enter {f f' : Nat → Engine V β}
    (h : ∀ start, start ≤ start ∧ start ≤ text.length → Shadows text start (f start) (f' start)) :
    Shadows text level (Engine.position >>= f) (Engine.position >>= f') := by
  intro past run plain ht
  obtain ⟨past', hpast, hstart⟩ := ht.exists_enter
  rw [bind_of_ok Engine.position_eq, bind_of_ok Engine.position_eq, ht.position_eq]
  exact (h run.position hstart.position past' run plain hstart).mono fun _ _ => ht.leave hpast

protected theorem watch (h : ∀ level, Shadows text level act act') :
    Shadows text level (Engine.watch text act) act' := by
  intro past run plain ht
  obtain ⟨past', hpast, hstart⟩ := ht.exists_enter
  have hact := h run.position past' run plain hstart
  have hstays : run.Stays text (stateAfter act run) := hact.stateAfter.stays hpast
  rw [Engine.watch, if_pos hstays]
  exact hact.mono fun _ _ => ht.leave hpast

protected theorem advance : Shadows text level (Engine.advance text : Engine V _) (Engine.advance text) := by
  intro past run plain ht
  have hposition := ht.position_eq
  cases hc : text.char? run.position with
  | none =>
      rw [Engine.advance_eq_none hc, Engine.advance_eq_none (hposition ▸ hc)]
      exact .ok ht
  | some c =>
      obtain ⟨hp, -⟩ := Buffer.char?_eq_some_iff.mp hc
      rw [Engine.advance_eq_some hc, Engine.advance_eq_some (hposition ▸ hc), hposition]
      exact .ok (ht.moveTo ⟨Nat.le_succ_of_le ht.position.1, hp⟩)

protected theorem rewind {p : Nat} (hp : level ≤ p ∧ p ≤ text.length) :
    Shadows text level (Engine.rewind text p : Engine V _) (Engine.rewind text p) := by
  intro past run plain ht
  rw [Engine.rewind_eq hp.2, Engine.rewind_eq hp.2]
  exact .ok (ht.moveTo hp)

protected theorem jump {p : Nat} (hp : level ≤ p ∧ p ≤ text.length) :
    Shadows text level (Engine.jump text p : Engine V _) (Engine.jump text p) := by
  intro past run plain ht
  rw [Engine.jump_eq hp.2, Engine.jump_eq hp.2]
  exact .ok (ht.moveTo hp)

theorem consult {r : RuleId} {start : Nat} {f f' : Option Outcome → Engine V β}
    (h : ∀ answer, (∀ stop, answer = some (.accepted stop) → start ≤ stop ∧ stop ≤ text.length) →
      Shadows text start (f answer) (f' answer)) :
    Shadows text start (Engine.consult ⟨r, start⟩ >>= f) (Engine.consult ⟨r, start⟩ >>= f') := by
  intro past run plain ht
  rw [bind_of_ok Engine.consult_eq, bind_of_ok Engine.consult_eq, ht.memo_eq]
  refine h _ (fun stop hstop => ht.memo.answer hstop stop rfl) past _ _ ?_
  exact ht.remember ht.memo.lookup

theorem remember {r : RuleId} {start : Nat} {o : Outcome}
    (h : ∀ stop, o = .accepted stop → start ≤ stop ∧ stop ≤ text.length) :
    Shadows text start (Engine.remember ⟨r, start⟩ o : Engine V _) (Engine.remember ⟨r, start⟩ o) := by
  intro past run plain ht
  rw [Engine.remember_eq, Engine.remember_eq, ht.memo_eq]
  exact .ok (ht.remember (ht.memo.record h))

theorem resolve {lookup : Resolution V α} :
    Shadows text level (Engine.resolve lookup) (Engine.resolve lookup) := by
  intro past run plain ht
  unfold Engine.resolve
  rw [ht.bindings_eq]
  cases lookup run.bindings with
  | ok a b => exact .ok ht.found
  | error halt b => exact .error ht.found

theorem unmemoized (h : Shadows text level act act') :
    Shadows text level (Engine.unmemoized act) (Engine.unmemoized act') := by
  intro past run plain ht
  have hact := h past _ _ (ht.remember (m := .empty .none) Memo.Every.empty)
  unfold Engine.unmemoized
  rw [ht.memo_eq]
  generalize act { run with memo := .empty .none } = x at hact
  generalize act' { plain with memo := .empty .none } = y at hact
  cases hact with
  | ok h => exact .ok (h.remember ht.memo)
  | error h => exact .error (h.remember ht.memo)

theorem attempt (h : Shadows text level act act') :
    Shadows text level (Engine.attempt act) (Engine.attempt act') := by
  intro past run plain ht
  have hact := h past run plain ht
  unfold Engine.attempt
  generalize act run = x at hact
  generalize act' plain = y at hact
  cases hact with
  | ok h => exact .ok h
  | @error halt _ _ h =>
      cases halt with
      | failed e =>
          cases e with
          | rejected => exact .ok h
          | cursor => exact .error h
      | faulted | exhausted => exact .error h

end Shadows

namespace Engine

variable {g : Grammar V} {text : Buffer}

theorem composes_shadows : Composes text (fun level p => level ≤ p ∧ p ≤ text.length)
    fun level _ (act act' : Engine V _) => Shadows text level act act' where
  pure _ _ _ _ ht := .ok ht
  throw _ _ _ _ ht := .error ht
  bind h hf := h.bind hf
  mark := .mark
  advance := .advance
  rewind := .rewind

theorem recognizing_shadows : Recognizing g text (fun level p => level ≤ p ∧ p ≤ text.length)
    fun level _ (act act' : Engine V _) => Shadows text level act act' where
  toComposes := composes_shadows
  enter := .enter
  consult := .consult
  remember := .remember
  report _ _ _ ht := .ok (ht.observe fun _ he => nomatch he)
  unmemoized := .unmemoized
  alternative _ := .resolve

theorem accept_shadows (g : Grammar V) (level fuel : Nat) (r : RuleId) :
    Shadows text level (acceptWatched g text fuel r) (accept g text fuel r) := by
  induction fuel generalizing level r with
  | zero => exact composes_shadows.throw _
  | succ fuel ih => exact .watch fun level => recognizing_shadows.acceptBy ih level fuel r

theorem constructing_shadows : Constructing g text (fun level p => level ≤ p ∧ p ≤ text.length)
    (fun level _ (act act' : Engine V _) => Shadows text level act act')
    (acceptWatched g text) (accept g text) where
  toComposes := composes_shadows
  jump := .jump
  perform _ _ _ _ ht := .ok ht.perform
  attempt := .attempt
  slot _ := .resolve
  accept := accept_shadows g _

theorem parseSlot_shadows {level limit fuel slot : Nat} :
    Shadows text level (parseSlotWatched g text limit fuel slot) (parseSlot g text limit fuel slot) := by
  induction fuel generalizing level slot with
  | zero => exact composes_shadows.throw _
  | succ fuel ih =>
      refine Shadows.resolve.bind fun p => .watch fun level => ?_
      exact constructing_shadows.twoPass (constructing_shadows.build (fun _ => ih) limit p) limit p.rule

theorem parseAt_shadows (g : Grammar V) (level fuel : Nat) (p : Parser V) :
    Shadows text level (parseAtWatched g text fuel p) (parseAt g text fuel p) := by
  refine .watch fun level => constructing_shadows.twoPass ?_ fuel p.rule
  exact constructing_shadows.build (fun _ => parseSlot_shadows) fuel p

end Engine

end Packrat
