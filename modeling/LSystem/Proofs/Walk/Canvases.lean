import LSystem.Proofs.Walk.Strokes

/-! Walks onto canvases.

A walk onto a canvas puts its commands behind those that are there as it goes, and does not look at
them (`walkOnto_eq`). What a canvas shows is in general not what its parts would show one by one,
since the color in force is carried from one part to the next. But a walk sends a color before its
first line, also one that is stopped (`opens_walk`), so no color from before it reaches its strokes,
and a canvas shows the strokes of its walks one after another (`tasks_onto_canvas`). -/
namespace LSystem

/-! ### Commands that begin with a color -/

namespace Pen

theorem read_append (pen : Pen) (first later : Array Command) :
    pen.read (first ++ later) = (pen.read first).read later := Array.foldl_append

/-- Strokes are drawn behind those of the pen, which are not looked at. -/
theorem read_strokes (pen : Pen) (commands : Array Command) :
    (pen.read commands).strokes =
      pen.strokes ++ (({ color := pen.color } : Pen).read commands).strokes := by
  obtain ⟨commands⟩ := commands
  simp only [read, List.foldl_toArray]
  suffices ∀ before strokes : Array Stroke, ∀ color,
      (commands.foldl obey ⟨color, before ++ strokes⟩).strokes =
        before ++ (commands.foldl obey ⟨color, strokes⟩).strokes from this pen.strokes #[] pen.color
  intro before strokes color
  induction commands generalizing strokes color with
  | nil => rfl
  | cons command rest ih =>
    cases command with
    | setColor color => exact ih strokes color
    | line start stop =>
      rw [List.foldl_cons, List.foldl_cons, obey, obey, ← Array.append_push]
      exact ih _ color

end Pen

/-- Nothing is drawn before a color is set. -/
def Opens (commands : Array Command) : Prop :=
  commands = #[] ∨ ∃ color rest, commands = #[.setColor color] ++ rest

/-- What begins with a color is shown alike behind any other commands. -/
theorem Opens.strokes_append {commands : Array Command} (h : Opens commands) (canvas : Canvas) :
    (canvas.append commands).strokes =
      canvas.strokes ++ (canvas.clear.append commands).strokes := by
  show (({} : Pen).read (canvas.commands ++ commands)).strokes =
    (({} : Pen).read canvas.commands).strokes ++ (({} : Pen).read (#[] ++ commands)).strokes
  rw [Array.empty_append, Pen.read_append, Pen.read_strokes]
  rcases h with rfl | ⟨color, rest, rfl⟩
  · rfl
  · -- The first command replaces the color in force, the one thing in which the two pens differ.
    rw [Pen.read_append, Pen.read_append]
    rfl

end LSystem

namespace LSystem.Walk

open Turtle (Op)

namespace State

/-- The state with commands in front of its own. -/
def behind (before : Array Command) (state : State) : State :=
  { state with commands := before ++ state.commands }

theorem behind_issue (before : Array Command) (state : State) (color : Color) :
    (state.behind before).issue color = (state.issue color).behind before := by
  unfold issue
  show (if state.issued.any color.equal then _ else _) = _
  split
  · rfl
  · rw [behind, behind, Array.append_push]

/-- Nothing that an operation does depends on the commands so far. -/
theorem behind_obey (before : Array Command) (config : Config) (grammar : Grammar) (symbol : Symbol)
    (index : Nat) (state : State) (op : Op) :
    obey config grammar symbol index (state.behind before) op =
      (obey config grammar symbol index state op).behind before := by
  cases op with
  | draw =>
    have hissue := behind_issue before state (state.turtle.color.getD config.defaultColor)
    simp only [obey, draw, hissue, show (state.behind before).turtle = state.turtle from rfl]
    simp only [behind, Array.append_push]
  | setColor =>
    simp only [obey]
    cases grammar.color? symbol <;> rfl
  | _ => rfl

end State

namespace Interpretation

variable (interpretation : Interpretation) (grammar : Grammar)

/-- Walks along a word and puts the commands on a canvas. -/
def walkOnto (canvas : Canvas) (word : Word) : Except WalkError Summary × Canvas :=
  match interpretation.config.validate with
  | .error fault => (.error (.invalidConfig fault), canvas)
  | .ok () =>
    match interpretation.walkFrom grammar 0 (interpretation.begin.behind canvas.commands) word with
    | (state, some fault) => (.error fault, { canvas with commands := state.commands })
    | (state, none) =>
      (.ok ⟨state.segments, state.maxDepth, state.turtle⟩, { canvas with commands := state.commands })

variable {interpretation grammar}

/-- Nothing in a walk depends on the commands before it. -/
theorem walkFrom_behind (before : Array Command) (index : Nat) (state : State) (word : Word) :
    interpretation.walkFrom grammar index (state.behind before) word =
      ((interpretation.walkFrom grammar index state word).1.behind before,
        (interpretation.walkFrom grammar index state word).2) := by
  induction word generalizing index state with
  | nil => rfl
  | cons symbol rest ih =>
    have hstop : interpretation.stop? grammar index (state.behind before) symbol =
        interpretation.stop? grammar index state symbol := rfl
    rw [walkFrom_cons, walkFrom_cons, hstop]
    cases interpretation.stop? grammar index state symbol with
    | some fault => rfl
    | none =>
      show interpretation.walkFrom grammar (index + 1)
        (interpretation.step grammar index (state.behind before) symbol) rest = _
      rw [step, State.behind_obey]
      exact ih _ _

/-- **A walk puts its commands behind those of the canvas**, and comes to the same on any. -/
theorem walkOnto_eq (interpretation : Interpretation) (grammar : Grammar) (canvas : Canvas)
    (word : Word) : interpretation.walkOnto grammar canvas word =
      ((interpretation.walk grammar word).result,
        canvas.append (interpretation.walk grammar word).commands) := by
  unfold walkOnto
  cases hvalid : interpretation.config.validate with
  | error fault =>
    rw [walk_of_invalid hvalid, Canvas.append, Array.append_empty]
  | ok =>
    rw [walk, hvalid]
    simp only [walkFrom_behind]
    cases hwalk : interpretation.walkFrom grammar 0 interpretation.begin word with
    | mk last stop => cases stop <;> rfl

/-! ### The first command of a walk -/

/-- A walk that has sent a color began with one, and one that has not has drawn nothing. -/
def Opened (state : State) : Prop :=
  state.issued = none ∧ state.commands = #[] ∨ ∃ color rest, state.commands = #[.setColor color] ++ rest

theorem Opened.opens {state : State} (h : Opened state) : Opens state.commands :=
  h.imp And.right id

theorem Opened.issue {state : State} (h : Opened state) (color : Color) :
    ∃ first rest, (state.issue color).commands = #[.setColor first] ++ rest := by
  unfold State.issue
  split
  · rename_i hsent
    rcases h with ⟨hnone, -⟩ | hopens
    · rw [hnone] at hsent
      cases hsent
    · exact hopens
  · rcases h with ⟨-, hempty⟩ | ⟨first, rest, hfirst⟩
    · exact ⟨color, #[], by rw [hempty]; rfl⟩
    · exact ⟨first, rest.push (.setColor color), by rw [hfirst, Array.append_push]⟩

theorem Opened.obey {state : State} (h : Opened state) (config : Config) (grammar : Grammar)
    (symbol : Symbol) (index : Nat) (op : Op) :
    Opened (obey config grammar symbol index state op) := by
  cases op with
  | draw =>
    right
    obtain ⟨color, rest, hcolor⟩ := h.issue (state.turtle.color.getD config.defaultColor)
    refine ⟨color, rest.push (.line state.turtle.position state.turtle.ahead), ?_⟩
    rw [Walk.obey, State.draw, State.issue_turtle, hcolor, Array.push_append]
    rfl
  | setColor =>
    simp only [Walk.obey]
    cases grammar.color? symbol <;> exact h
  | _ => exact h

/-- **A walk draws nothing before it sends a color**, wherever it is stopped. -/
theorem opens_walk (interpretation : Interpretation) (grammar : Grammar) (word : Word) :
    Opens (interpretation.walk grammar word).commands := by
  cases hvalid : interpretation.config.validate with
  | error fault =>
    rw [walk_of_invalid hvalid]
    exact .inl rfl
  | ok =>
    rw [walk_commands hvalid]
    obtain ⟨read, hread⟩ := exists_reads interpretation grammar 0 interpretation.begin word
    exact (hread.induction_begin (fun _ state => Opened state) (.inl ⟨rfl, rfl⟩)
      fun _ symbol _ _ hopened _ => hopened.obey _ _ symbol _ _).opens

end Interpretation

/-- A word to walk along. -/
structure Task where
  interpretation : Interpretation
  grammar : Grammar
  word : Word

namespace Task

open Interpretation

/-- The walk of a task, onto nothing. -/
def outcome (task : Task) : Outcome := task.interpretation.walk task.grammar task.word

/-- The walk of a task onto a canvas. -/
def onto (task : Task) (canvas : Canvas) : Except WalkError Summary × Canvas :=
  task.interpretation.walkOnto task.grammar canvas task.word

/-- A canvas after some tasks. -/
def canvasAfter (tasks : List Task) (canvas : Canvas) : Canvas :=
  tasks.foldl (fun canvas task => (task.onto canvas).2) canvas

/-- **Walks on one canvas do not touch one another.** A walk onto a canvas comes to what it comes to
anywhere, leaves the commands there in place with its own behind them, and the canvas shows its strokes
behind those it showed before; so after any tasks, complete or stopped, it shows what they show on
blank canvases one by one. -/
theorem tasks_onto_canvas (canvas : Canvas) :
    (∀ task : Task, task.onto canvas = (task.outcome.result, canvas.append task.outcome.commands) ∧
      (task.onto canvas).2.strokes = canvas.strokes ++ (task.onto canvas.clear).2.strokes) ∧
    ∀ tasks : List Task, (canvasAfter tasks canvas).strokes.toList =
      canvas.strokes.toList ++ tasks.flatMap fun task => (task.onto {}).2.strokes.toList := by
  have hshown (task : Task) (canvas : Canvas) :
      (task.onto canvas).2.strokes = canvas.strokes ++ (task.onto canvas.clear).2.strokes := by
    rw [onto, onto, walkOnto_eq, walkOnto_eq]
    exact (opens_walk task.interpretation task.grammar task.word).strokes_append canvas
  refine ⟨fun task => ⟨walkOnto_eq _ _ _ _, hshown task canvas⟩, fun tasks => ?_⟩
  induction tasks generalizing canvas with
  | nil => exact (List.append_nil _).symm
  | cons task rest ih =>
    have hblank : (task.onto canvas.clear).2.strokes = (task.onto {}).2.strokes := by
      rw [onto, onto, walkOnto_eq, walkOnto_eq]
      rfl
    calc
      (canvasAfter rest (task.onto canvas).2).strokes.toList
        = (task.onto canvas).2.strokes.toList ++
            rest.flatMap fun task => (task.onto {}).2.strokes.toList := ih _
      _ = canvas.strokes.toList ++ (task.onto {}).2.strokes.toList ++
            rest.flatMap fun task => (task.onto {}).2.strokes.toList := by
          rw [hshown, hblank, Array.toList_append]
      _ = _ := by rw [List.flatMap_cons, List.append_assoc]

end Task

end LSystem.Walk
