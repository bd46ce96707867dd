import LSystem.Proofs.Walk.Forest

/-! Closed branches.

A branch that is closed again leaves the turtle and the open branches as it found them, but not the
color that was sent last. Two walks that stand alike in the first two read the same symbols of a word
from there on, stop at the same symbol, and draw the same strokes (`walkFrom_alike`), though not by
the same commands. So what a walk does outside of a closed branch is what it does without the branch,
faults stand later by the length of the branch, and the strokes of the branch come right after those
that were drawn before it (`walk_insert_branch`). -/
namespace LSystem.Walk

open Turtle (Op)

/-- The same error, so many symbols later. -/
def WalkError.later (count : Nat) : WalkError → WalkError := mapPosition (· + count)

/-- The same turtle inside the same branches. -/
structure Alike (s t : State) : Prop where
  turtle : s.turtle = t.turtle
  saved : s.saved = t.saved

/-- An operation looks at the turtle and the branches only, wherever its symbol stands. -/
theorem Alike.obey {s t : State} (h : Alike s t) (config : Config) (grammar : Grammar)
    (symbol : Symbol) (i j : Nat) (op : Op) :
    Alike (obey config grammar symbol i s op) (obey config grammar symbol j t op) := by
  obtain ⟨hturtle, hsaved⟩ := h
  cases op with
  | draw => exact ⟨by simp [Walk.obey, State.draw, hturtle], by simp [Walk.obey, State.draw, hsaved]⟩
  | setColor =>
    simp only [Walk.obey]
    cases grammar.color? symbol with
    | none => exact ⟨hturtle, hsaved⟩
    | some color => exact ⟨by simp [State.setColor, hturtle], hsaved⟩
  | _ =>
    constructor <;> simp [Walk.obey, State.push, State.pop, hturtle, hsaved]

namespace Interpretation

variable {interpretation : Interpretation} {grammar : Grammar} {s t : State}

theorem stop?_alike (h : Alike s t) (index count : Nat) (symbol : Symbol) :
    interpretation.stop? grammar (index + count) t symbol =
      (interpretation.stop? grammar index s symbol).map (WalkError.later count) := by
  rw [stop?, ← h.saved]
  exact fault?_move interpretation.config s.saved.size index (· + count) _

theorem step_alike (h : Alike s t) (i j : Nat) (symbol : Symbol) :
    Alike (interpretation.step grammar i s symbol) (interpretation.step grammar j t symbol) :=
  h.obey _ _ _ _ _ _

/-- Alike, the same strokes are drawn. -/
theorem strokesFrom_alike (h : Alike s t) (i j : Nat) (word : Word) :
    interpretation.strokesFrom grammar i s word = interpretation.strokesFrom grammar j t word := by
  induction word generalizing s t i j with
  | nil => rfl
  | cons symbol rest ih =>
    rw [strokesFrom, strokesFrom, h.turtle, ih (step_alike h i j symbol) (i + 1) (j + 1)]

/-- **Walks that stand alike go on alike**: they read the same symbols, stop for the same reason, and
stand alike where they end. -/
theorem walkFrom_alike (h : Alike s t) (index count : Nat) (word : Word) :
    ∃ read a b stop,
      interpretation.walkFrom grammar index s word = (a, stop) ∧
      interpretation.walkFrom grammar (index + count) t word = (b, stop.map (WalkError.later count)) ∧
      Alike a b ∧ Reads interpretation grammar index s read a ∧
      Reads interpretation grammar (index + count) t read b :=
  walkFrom_related (fun h index => stop?_alike h index count)
    (fun h index => step_alike h index (index + count)) h index word

/-! ### One branch -/

section Branch
variable {opening closing : Symbol} {body : Word}

/-- A closed branch brings back the turtle and the branches that it found. -/
theorem alike_of_branch (hopening : interpretation.opFor grammar opening = .push)
    (hclosing : interpretation.opFor grammar closing = .pop)
    (hnested : Word.Balanced (interpretation.level grammar) body) {index : Nat} {state last : State}
    (h : Reads interpretation grammar index state (opening :: body ++ [closing]) last) :
    Alike state last := by
  obtain ⟨hfits, hword⟩ := (Forest.eq_ofWord_iff hnested).mp rfl
  let forest := Forest.branch opening (Forest.ofWord (interpretation.opFor grammar) body) closing .nil
  have hforest : forest.Fits (interpretation.opFor grammar) := ⟨hopening, hfits, hclosing, trivial⟩
  have hbranch : forest.word = opening :: body ++ [closing] := by
    rw [Forest.word, hword]
    rfl
  rw [← hbranch] at h
  have hdrawn := Forest.drawn hforest h
  exact ⟨hdrawn.turtle.symm, hdrawn.saved.symm⟩

theorem depth_branch (hopening : interpretation.opFor grammar opening = .push)
    (hclosing : interpretation.opFor grammar closing = .pop)
    (hnested : Word.Balanced (interpretation.level grammar) body) :
    Word.depth (interpretation.level grammar) (opening :: body ++ [closing]) = 0 := by
  have hopen : interpretation.level grammar opening = 1 := by rw [level, hopening]; rfl
  have hclose : interpretation.level grammar closing = -1 := by rw [level, hclosing]; rfl
  rw [Word.depth_append, Word.depth_cons, Word.depth_singleton, hnested.closed, hopen, hclose]
  rfl

/-- The brackets of a branch draw nothing. -/
theorem draws_branch (hopening : interpretation.opFor grammar opening = .push)
    (hclosing : interpretation.opFor grammar closing = .pop) (u v : Word) :
    interpretation.draws grammar (u ++ (opening :: body ++ [closing]) ++ v) =
      interpretation.draws grammar (u ++ v) + interpretation.draws grammar body := by
  simp only [draws, List.countP_append, List.cons_append, List.countP_cons, List.countP_nil, hopening,
    hclosing]
  simp
  omega

/-- The strokes of a branch, and of what is read with and without it in front. -/
theorem shown_branch (hopening : interpretation.opFor grammar opening = .push)
    (hclosing : interpretation.opFor grammar closing = .pop) {u read : Word} {index : Nat}
    {mid back a b : State} (hu : Reads interpretation grammar 0 interpretation.begin u mid)
    (hbranch : Reads interpretation grammar u.length mid (opening :: body ++ [closing]) back)
    (halike : Alike mid back) (hplain : Reads interpretation grammar u.length mid read a)
    (hgrown : Reads interpretation grammar index back read b) :
    let pen : Pen := {}
    let before := (pen.read mid.commands).strokes.toList
    ∃ inner after later,
      (pen.read back.commands).strokes.toList = before ++ inner ∧
      inner.length = interpretation.draws grammar body ∧
      (pen.read a.commands).strokes.toList = before ++ after ∧
      (pen.read b.commands).strokes.toList = before ++ inner ++ later ∧
      List.Forall₂ Stroke.Same later after := by
  intro pen before
  obtain ⟨hmid, -⟩ := hu.shows issued_begin
  obtain ⟨hback, inner, hinner, hsame⟩ := hbranch.shows hmid
  obtain ⟨-, after, hafter, hplainSame⟩ := hplain.shows hmid
  obtain ⟨-, later, hlater, hgrownSame⟩ := hgrown.shows hback
  rw [← strokesFrom_alike halike u.length index] at hgrownSame
  refine ⟨inner, after, later, hinner, ?_, hafter, ?_, ?_⟩
  · have hwhole := (hu.append hbranch).counts.segments
    have hdraws : interpretation.draws grammar (u ++ (opening :: body ++ [closing]) ++ []) = _ :=
      draws_branch hopening hclosing u []
    rw [List.append_nil, List.append_nil, ← hwhole, ← hu.counts.segments, hbranch.segments] at hdraws
    rw [hsame.length_eq]
    omega
  · rw [hlater, hinner]
  · exact forall₂_trans (S := flip Stroke.Same) (fun h h' => h.trans_symm h') hgrownSame hplainSame.flip

end Branch

/-- **A closed branch is invisible outside of it.** A walk that has come through a branch goes on as
without the branch: it comes to the same turtle with the strokes of the branch counted as well, or
fails alike, later by the length of the branch; and the strokes of the branch stand between those
that were drawn before it and the same strokes after it. -/
theorem walk_insert_branch (interpretation : Interpretation) (grammar : Grammar)
    {u body v : Word} {opening closing : Symbol}
    (hopening : interpretation.opFor grammar opening = .push)
    (hclosing : interpretation.opFor grammar closing = .pop)
    (hnested : Word.Balanced (interpretation.level grammar) body) {through : Summary}
    (hthrough : (interpretation.walk grammar (u ++ (opening :: body ++ [closing]))).result =
      .ok through) :
    let branch := opening :: body ++ [closing]
    let before := (interpretation.walk grammar u).shown
    let plain := interpretation.walk grammar (u ++ v)
    let grown := interpretation.walk grammar (u ++ branch ++ v)
    (∀ summary, plain.result = .ok summary → grown.result =
      .ok ⟨summary.segments + interpretation.draws grammar body,
        max summary.maxDepth through.maxDepth, summary.finalState⟩) ∧
    (∀ fault, plain.result = .error fault → grown.result = .error (fault.later branch.length)) ∧
    ∃ inner after later,
      (interpretation.walk grammar (u ++ branch)).shown = before ++ inner ∧
      inner.length = interpretation.draws grammar body ∧
      plain.shown = before ++ after ∧
      grown.shown = before ++ inner ++ later ∧
      List.Forall₂ Stroke.Same later after := by
  intro branch before plain grown
  obtain ⟨hvalid, back, hread⟩ := reads_of_ok hthrough
  obtain ⟨mid, hu, hbranch⟩ := Reads.append_iff.mp hread
  rw [Nat.zero_add] at hbranch
  have halike := alike_of_branch hopening hclosing hnested hbranch
  obtain ⟨read, a, b, stop, ha, hb, hab, hreada, hreadb⟩ :=
    walkFrom_alike halike u.length branch.length v
  have hplain : interpretation.walkFrom grammar 0 interpretation.begin (u ++ v) = (a, stop) :=
    (hu.walkFrom_append v).trans ha
  have hgrown : interpretation.walkFrom grammar 0 interpretation.begin (u ++ branch ++ v) =
      (b, stop.map (WalkError.later branch.length)) := by
    rw [hread.walkFrom_append, List.length_append]
    exact hb
  rw [← and_assoc]
  constructor
  · cases stop with
    | some stopped =>
      have hp : plain = ⟨.error stopped, a.commands, a.log⟩ := walk_of_fault hvalid hplain
      have hg : grown = ⟨.error (stopped.later branch.length), b.commands, b.log⟩ :=
        walk_of_fault hvalid hgrown
      rw [hp, hg]
      refine ⟨fun summary hsummary => (nomatch hsummary), fun fault hfault => ?_⟩
      cases hfault
      rfl
    | none =>
      have hreadPlain := walkFrom_eq_none_iff.mp hplain
      have hreadGrown := walkFrom_eq_none_iff.mp hgrown
      have hp : plain = _ := walk_of_reads hvalid hreadPlain
      have hg : grown = _ := walk_of_reads hvalid hreadGrown
      rw [walk_of_reads hvalid hread] at hthrough
      cases hthrough
      rw [hp, hg]
      refine ⟨fun summary hsummary => ?_, fun fault hfault => nomatch hfault⟩
      cases hsummary
      simp only [hreadPlain.counts.segments, hreadPlain.counts.deepest, hread.counts.deepest,
        hreadGrown.counts.segments, hreadGrown.counts.deepest, hab.turtle, branch,
        draws_branch hopening hclosing,
        Word.nesting_insert _ (depth_branch hopening hclosing hnested)]
  · simp only [before, plain, grown, Outcome.shown_eq, walk_commands hvalid, hplain, hgrown,
      branch, walkFrom_eq_none_iff.mpr hread, walkFrom_eq_none_iff.mpr hu]
    exact shown_branch hopening hclosing hu hbranch halike hreada hreadb

/-- A colored branch on a twig, inside an open branch, before a bracket too many. -/
theorem walk_insert_colored_branch :
    let interpretation := standard { reduction := 2 }
    let u := "F[F".toList
    let branch := '[' :: "1F+F".toList ++ [']']
    let v := "F]F]".toList
    (∃ through, (interpretation.walk twig (u ++ branch)).result = .ok through) ∧
      (interpretation.walk twig (u ++ v)).result = .error (.stackUnderflow 6) ∧
      (interpretation.walk twig (u ++ branch ++ v)).result = .error (.stackUnderflow 12) ∧
      ∃ inner after later,
        (interpretation.walk twig (u ++ branch)).shown = (interpretation.walk twig u).shown ++ inner ∧
        inner.length = 2 ∧
        (interpretation.walk twig (u ++ v)).shown = (interpretation.walk twig u).shown ++ after ∧
        (interpretation.walk twig (u ++ branch ++ v)).shown =
          (interpretation.walk twig u).shown ++ inner ++ later ∧
        List.Forall₂ Stroke.Same later after := by
  intro interpretation u branch v
  have hnested : Word.Balanced (interpretation.level twig) "1F+F".toList := by decide +kernel
  have hcomplete : (interpretation.walk twig (u ++ branch)).result.toBool = true := by decide +kernel
  cases hthrough : (interpretation.walk twig (u ++ branch)).result with
  | error fault =>
    rw [hthrough] at hcomplete
    cases hcomplete
  | ok through =>
    have hplain : (interpretation.walk twig (u ++ v)).result = .error (.stackUnderflow 6) := by
      decide +kernel
    obtain ⟨-, hfault, hstrokes⟩ := walk_insert_branch interpretation twig (v := v)
      (by decide +kernel : interpretation.opFor twig '[' = .push)
      (by decide +kernel : interpretation.opFor twig ']' = .pop) hnested hthrough
    exact ⟨⟨through, rfl⟩, hplain, hfault _ hplain, hstrokes⟩

end Interpretation

end LSystem.Walk
