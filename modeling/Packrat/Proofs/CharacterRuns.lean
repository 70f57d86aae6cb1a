import Mathlib.Data.List.TakeWhile
import Packrat.Proofs.OnePass
import Packrat.Proofs.Reading
import Packrat.Proofs.Sequences

/-!
# Runs of characters

A run of characters can be parsed as a whole, where the text is cut between two positions, or by repeating
the parser of a single character, which makes a value of each. Both take the longest run there is and nothing
else, and both are rejected where it is empty (`Scene.runs_agree`).
-/

namespace Packrat

open Relation (ReflTransGen)
open Engine

variable {V : Type}

/-! ## The longest run -/

/-- From the position on, the characters satisfy the test, and there are no more that do. -/
structure LongestRun (text : Buffer) (test : Char → Bool) (p : Nat) (cs : List Char) : Prop where
  inside : cs <+: text.rest p
  satisfy : ∀ c ∈ cs, test c = true
  longest : ∀ cs', cs' <+: text.rest p → (∀ c ∈ cs', test c = true) → cs'.length ≤ cs.length

namespace LongestRun

variable {text : Buffer} {test : Char → Bool} {p : Nat} {cs cs' : List Char}

theorem unique (h : LongestRun text test p cs) (h' : LongestRun text test p cs') : cs = cs' := by
  have hlength : cs.length = cs'.length :=
    Nat.le_antisymm (h'.longest cs h.inside h.satisfy) (h.longest cs' h'.inside h'.satisfy)
  exact (List.prefix_of_prefix_length_le h.inside h'.inside hlength.le).eq_of_length hlength

theorem of_takeWhile : LongestRun text test p ((text.rest p).takeWhile test) where
  inside := List.takeWhile_prefix test
  satisfy _ hc := List.mem_takeWhile_imp hc
  longest cs' hinside hsatisfy := by
    obtain ⟨more, hmore⟩ := hinside
    rw [← hmore, List.takeWhile_append_of_pos hsatisfy, List.length_append]
    exact Nat.le_add_right _ _

theorem eq_nil_iff (h : LongestRun text test p cs) :
    cs = [] ↔ ∀ c, text.char? p = some c → test c = false := by
  obtain rfl := h.unique of_takeWhile
  cases hc : text.char? p with
  | none => simp [Buffer.rest_eq_nil hc]
  | some c => simp [Buffer.rest_eq_cons hc, List.takeWhile_cons]

end LongestRun

/-! ## Parsing to the end -/

/-- With some fuel the parse finishes, and with whatever fuel it does, it ends as the yield says. -/
def Engine.ParsesTo (g : Grammar V) (text : Buffer) (p : Parser V) (run : Run V) (y : Yield V) : Prop :=
  (∃ fuel, Settled (parseAt g text fuel p run)) ∧
    ∀ fuel, Settled (parseAt g text fuel p run) → ∃ after,
      (∃ v, parseAt g text fuel p run = .ok v after ∧ y = some (v, after.position)) ∨
        parseAt g text fuel p run = .error (.failed .rejected) after ∧ y = none ∧
          after.position = run.position

section

variable {g : Grammar V} {text : Buffer} {p : Parser V} {run : Run V} {y : Yield V} {r i : RuleId}
  {s : Nat} {d : String} {test : Char → Bool} {embed : List Char → V} {one : Char → V}
  {collect : List V → V}

theorem Returns.exists_settled (h : Returns g text (parseAt g text fuel p) run.position y)
    (good : run.Good g text) : Settled (parseAt g text fuel p run) := by
  cases y with
  | some x =>
      obtain ⟨_, _, hok, -⟩ := (h run good rfl).exists_ok
      exact .of_ok hok
  | none =>
      obtain ⟨_, _, herr, -, rfl, -⟩ := (h run good rfl).exists_error
      exact .of_error herr nofun

theorem Yields.parsesTo (hg : g.Aligned) (hp : p.Aligned g) (good : run.Good g text)
    (hy : Yields g text p run.position y) : ParsesTo g text p run y := by
  obtain ⟨fuel, hl, -⟩ := g.exists_ample text 0
  refine ⟨⟨fuel, (hy.parseAt_ample hg hp good hl).exists_settled good⟩, fun fuel hs => ?_⟩
  obtain ⟨after, -, h⟩ := hy.parseAt_settled hg hp good hs
  exact ⟨after, h⟩

/-! ### Both ways -/

theorem Yields.characters_run (hb : g.body r = .plus i) (hi : g.body i = .predicate d test) :
    Yields g text (.characters r embed) s
      (if (text.rest s).takeWhile test = [] then none
        else some (embed ((text.rest s).takeWhile test), s + ((text.rest s).takeWhile test).length)) := by
  split
  · next h => exact .characters_reject hb hi h
  · next h => exact .characters hb hi rfl h

theorem Yields.plus_character_run (hb : g.body i = .predicate d test) (hs : s ≤ text.length) :
    Yields g text (.plus r (.character i one) collect) s
      (if (text.rest s).takeWhile test = [] then none
        else some (collect (((text.rest s).takeWhile test).map one),
          s + ((text.rest s).takeWhile test).length)) := by
  have hleaves : text.Leaves s (text.rest s) := ⟨hs, rfl⟩
  cases hrest : text.rest s with
  | nil =>
      rw [hrest] at hleaves
      exact Fails.plus (.character hb (by simp)) s hleaves
  | cons c cs =>
      rw [hrest] at hleaves
      cases ht : test c with
      | false =>
          rw [List.takeWhile_cons, ht]
          exact Fails.plus (.character hb (by simpa using ht)) s hleaves
      | true =>
          rw [List.takeWhile_cons, ht]
          have hreads : Reads g text (.plus r (.character i one) collect) (c :: cs)
              (collect (one c :: (cs.takeWhile test).map one)) (cs.dropWhile test) :=
            .plus (.character hb ht) (.star_character hb)
          obtain ⟨e, he, hy⟩ := hreads s hleaves
          -- what is left after the run says where it ends
          have hsplit : text.Leaves s ((c :: cs.takeWhile test) ++ cs.dropWhile test) := by
            rwa [List.cons_append, List.takeWhile_append_dropWhile]
          obtain rfl := he.position_eq.trans hsplit.append.position_eq.symm
          exact hy

end

/-! ## The parsers of a scene -/

namespace Assembly

variable {w w' : Workspace V} {p : Parser V} {d : String} {test : Char → Bool}

theorem node_extends {b : Body} {r : RuleId} (hok : node b w = .ok r w') : w.grammar.Extends w'.grammar := by
  cases hok
  exact Grammar.extends_rule

theorem characters_made {embed : List Char → V} (hok : characters d test embed w = .ok p w') :
    ∃ r i, p = .characters r embed ∧ r ≤ w'.grammar.rules.size ∧ i ≤ w'.grammar.rules.size ∧
      w'.grammar.body r = .plus i ∧ w'.grammar.body i = .predicate d test := by
  obtain ⟨i, mid, hone⟩ : ∃ i mid, predicate d test w = .ok i mid := ⟨_, _, rfl⟩
  obtain ⟨r, after, hrule⟩ : ∃ r after, plus i mid = .ok r after := ⟨_, _, rfl⟩
  have hparser : characters d test embed w = .ok (.characters r embed) after :=
    (bind_of_ok hone).trans (bind_of_ok hrule)
  cases hparser.symm.trans hok
  obtain ⟨-, hi, hbi⟩ := node_made hone
  obtain ⟨-, hr, hbr⟩ := node_made hrule
  have he := node_extends hrule
  exact ⟨r, i, rfl, hr, Nat.le_trans hi he.rules, hbr, (he.body i hi).trans hbi⟩

theorem character_made {embed : Char → V} (hok : character d test embed w = .ok p w') :
    ∃ r, p = .character r embed ∧ r ≤ w'.grammar.rules.size ∧ w'.grammar.body r = .predicate d test := by
  obtain ⟨r, after, hone⟩ : ∃ r after, predicate d test w = .ok r after := ⟨_, _, rfl⟩
  have hparser : character d test embed w = .ok (.character r embed) after := bind_of_ok hone
  cases hparser.symm.trans hok
  obtain ⟨-, hr, hb⟩ := node_made hone
  exact ⟨r, rfl, hr, hb⟩

theorem plusParser_made {item : Parser V} {collect : List V → V}
    (hok : plusParser item collect w = .ok p w') :
    ∃ r, p = .plus r item collect ∧ r ≤ w'.grammar.rules.size ∧ w'.grammar.body r = .plus item.rule := by
  obtain ⟨r, after, hrule⟩ : ∃ r after, plus item.rule w = .ok r after := ⟨_, _, rfl⟩
  have hparser : plusParser item collect w = .ok (.plus r item collect) after := bind_of_ok hrule
  cases hparser.symm.trans hok
  obtain ⟨-, hr, hb⟩ := node_made hrule
  exact ⟨r, rfl, hr, hb⟩

end Assembly

namespace Scene

variable {s : Scene V} {act : Assembly V (Parser V)} {p item : Parser V} {d d' : String}
  {test : Char → Bool} {embed : List Char → V} {one : Char → V} {collect : List V → V}

/-- The parser has been made by the operation, and anything may have been done before and since. -/
def Built (s : Scene V) (act : Assembly V (Parser V)) (p : Parser V) : Prop :=
  ∃ (s₀ : Scene V) (w : Workspace V), s₀.Reached ∧ s₀.Operation (s₀.makes act) ∧
    act s₀.workspace = .ok p w ∧ ReflTransGen Operation (s₀.makes act) s

namespace Built

/-- Whatever is made is still there, as it was made. -/
theorem grows (h : s.Built act p) : ∃ w w', act w = .ok p w' ∧ w'.grammar.Extends s.grammar := by
  obtain ⟨s₀, w, reached, hmakes, hok, hleads⟩ := h
  have orderly := (reached.orderly.operation hmakes).orderly
  exact ⟨_, _, makes_ok hok, (orderly.operations hleads).grows⟩

theorem characters (h : s.Built (Assembly.characters d test embed) p) : ∃ r i, p = .characters r embed ∧
    s.grammar.body r = .plus i ∧ s.grammar.body i = .predicate d test := by
  obtain ⟨w, w', hok, he⟩ := h.grows
  obtain ⟨r, i, rfl, hr, hi, hbr, hbi⟩ := Assembly.characters_made hok
  exact ⟨r, i, rfl, (he.body r hr).trans hbr, (he.body i hi).trans hbi⟩

theorem character (h : s.Built (Assembly.character d test one) p) :
    ∃ r, p = .character r one ∧ s.grammar.body r = .predicate d test := by
  obtain ⟨w, w', hok, he⟩ := h.grows
  obtain ⟨r, rfl, hr, hb⟩ := Assembly.character_made hok
  exact ⟨r, rfl, (he.body r hr).trans hb⟩

theorem plus (h : s.Built (Assembly.plusParser item collect) p) :
    ∃ r, p = .plus r item collect ∧ s.grammar.body r = .plus item.rule := by
  obtain ⟨w, w', hok, he⟩ := h.grows
  obtain ⟨r, rfl, hr, hb⟩ := Assembly.plusParser_made hok
  exact ⟨r, rfl, (he.body r hr).trans hb⟩

end Built

/-- However a scene was reached in which there are a parser of runs of characters and one that repeats the
parser of a single character, with one test: at every position of every text, and with any right tables
(such as empty ones with or without memory), both finish. Where the longest run of characters that satisfy the
test is not empty, both end after it, and their values are made of its characters; where it is empty, which
is where the next character does not satisfy the test or there is none, both are rejected. -/
theorem runs_agree (reached : s.Reached) {whole many : Parser V}
    (hwhole : s.Built (Assembly.characters d test embed) whole)
    (hitem : s.Built (Assembly.character d' test one) item)
    (hmany : s.Built (Assembly.plusParser item collect) many) {text : Buffer} {start : Nat}
    (inside : start ≤ text.length) {m m' : Memo} (hm : m.Correct s.grammar text)
    (hm' : m'.Correct s.grammar text) :
    ∃ cs, LongestRun text test start cs ∧
      (cs = [] ↔ ∀ c, text.char? start = some c → test c = false) ∧
      ParsesTo s.grammar text whole (.begin start m s.bindings)
        (if cs = [] then none else some (embed cs, start + cs.length)) ∧
      ParsesTo s.grammar text many (.begin start m' s.bindings)
        (if cs = [] then none else some (collect (cs.map one), start + cs.length)) := by
  obtain ⟨r, i, rfl, hbr, hbi⟩ := hwhole.characters
  obtain ⟨c, rfl, hbc⟩ := hitem.character
  obtain ⟨r', rfl, hbr'⟩ := hmany.plus
  have consistent := reached.orderly.assembled.consistent
  have hg := consistent.aligned_slots
  have hwholeAligned : (Parser.characters r embed).Aligned s.grammar := by
    rw [Parser.Aligned, Parser.rule, hbr]
    exact .characters hbr hbi
  have hmanyAligned : (Parser.plus r' (.character c one) collect).Aligned s.grammar := by
    rw [Parser.Aligned, Parser.rule, hbr']
    refine .plus ?_
    rw [Parser.rule, hbc]
    exact .character hbc
  refine ⟨_, .of_takeWhile, LongestRun.of_takeWhile.eq_nil_iff, ?_, ?_⟩
  · exact Yields.parsesTo hg hwholeAligned ⟨inside, consistent.sound, hm⟩ (.characters_run hbr hbi)
  · exact Yields.parsesTo hg hmanyAligned ⟨inside, consistent.sound, hm'⟩ (.plus_character_run hbc inside)

/-- Two digits at the end of a text. -/
theorem runs_agree_digits :
    ∃ (s : Scene (List Char)) (whole item many : Parser (List Char)), s.Reached ∧
      s.Built (Assembly.characters "[0-9]" Char.isDigit id) whole ∧
      s.Built (Assembly.character "[0-9]" Char.isDigit fun c => [c]) item ∧
      s.Built (Assembly.plusParser item List.flatten) many ∧
      ParsesTo s.grammar (.load 0 "a42") whole (.begin 1 (.empty .full) s.bindings) (some (['4', '2'], 3)) ∧
      ParsesTo s.grammar (.load 0 "a42") many (.begin 1 (.empty .none) s.bindings)
        (some (['4', '2'], 3)) := by
  let first := (empty : Scene (List Char)).makes (Assembly.characters "[0-9]" Char.isDigit id)
  let second := first.makes (Assembly.character "[0-9]" Char.isDigit fun c => [c])
  let item : Parser (List Char) := .character 3 fun c => [c]
  let s := second.makes (Assembly.plusParser item List.flatten)
  have hfirst : (empty : Scene (List Char)).Operation first := .characters
  have hsecond : first.Operation second := .character
  have hmember : item ∈ second.parsers := List.mem_cons_self
  have hthird : second.Operation s := .plus hmember
  have reached₁ : first.Reached := .single hfirst
  have reached₂ : second.Reached := reached₁.tail hsecond
  have hwhole : s.Built (Assembly.characters "[0-9]" Char.isDigit id) (.characters 2 id) :=
    ⟨empty, _, .refl, hfirst, rfl, (ReflTransGen.single hsecond).tail hthird⟩
  have hitem : s.Built (Assembly.character "[0-9]" Char.isDigit fun c => [c]) item :=
    ⟨first, _, reached₁, hsecond, rfl, .single hthird⟩
  have hmany : s.Built (Assembly.plusParser item List.flatten) (.plus 4 item List.flatten) :=
    ⟨second, _, reached₂, hthird, rfl, .refl⟩
  have inside : 1 ≤ (Buffer.load 0 "a42").length := by decide
  have hfull : (Memo.empty .full).Correct s.grammar (.load 0 "a42") := .empty
  have hnone : (Memo.empty .none).Correct s.grammar (.load 0 "a42") := .empty
  obtain ⟨cs, hlongest, -, hparses, hparses'⟩ :=
    runs_agree (reached₂.tail hthird) hwhole hitem hmany inside hfull hnone
  obtain rfl : cs = ['4', '2'] := hlongest.unique .of_takeWhile
  exact ⟨s, _, item, _, reached₂.tail hthird, hwhole, hitem, hmany, hparses, hparses'⟩

end Scene

end Packrat
