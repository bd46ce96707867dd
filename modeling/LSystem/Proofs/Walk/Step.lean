import LSystem.Walk.Run

/-! One symbol of a walk.

Whether a symbol stops a walk depends on the operation it resolves to and on the number of open
branches alone (`fault?_eq_some_iff`), and the fault names the index of the symbol. Each part of a
walk's state has one law that says how a symbol changes it. -/
namespace LSystem

/-- Lines, as opposed to colors. -/
def Command.isLine : Command → Bool
  | line _ _ => true
  | setColor _ => false

/-- How many lines some commands draw. -/
def lineCount (commands : Array Command) : Nat := commands.countP Command.isLine

theorem lineCount_push (commands : Array Command) (command : Command) :
    lineCount (commands.push command) = lineCount commands + if command.isLine then 1 else 0 :=
  Array.countP_push

/-- Opening a branch counts up, closing one counts down. -/
def Turtle.Op.level : Turtle.Op → Int
  | push => 1
  | pop => -1
  | _ => 0

theorem Turtle.Op.level_le_zero {op : Turtle.Op} (h : op ≠ push) : op.level ≤ 0 := by
  cases op with
  | push => exact absurd rfl h
  | pop => decide
  | _ => exact Int.le_refl 0

theorem Turtle.Op.level_eq_zero {op : Turtle.Op} (hpush : op ≠ push) (hpop : op ≠ pop) :
    op.level = 0 := by
  cases op with
  | push => exact absurd rfl hpush
  | pop => exact absurd rfl hpop
  | _ => rfl

end LSystem

namespace LSystem.Walk

open Turtle (Op)

/-! ### Faults -/

/-- The index of the symbol that stopped a walk; none if the walk did not begin. -/
def WalkError.position? : WalkError → Option Nat
  | stackUnderflow position => some position
  | stackOverflow _ position => some position
  | invalidConfig (.strokeLength _ _ index) => some index
  | invalidConfig _ => none

/-- **What stops a walk at a symbol**: a branch is closed and none is open, or one is opened at the
limit, or one is opened below the limit and its strokes have no finite length. -/
theorem fault?_eq_some_iff {config : Config} {depth index : Nat} {op : Op} {fault : WalkError} :
    fault? config depth index op = some fault ↔
      (op = .pop ∧ depth = 0 ∧ fault = .stackUnderflow index) ∨
      (op = .push ∧ config.maxDepth ≤ depth ∧ fault = .stackOverflow config.maxDepth index) ∨
      (op = .push ∧ depth < config.maxDepth ∧ (config.lengthAtDepth (depth + 1)).isFinite = false ∧
        fault = .invalidConfig
          (.strokeLength (config.lengthAtDepth (depth + 1)) (depth + 1) index)) := by
  cases op with
  | pop =>
    by_cases h : depth = 0 <;> simp [fault?, h, @eq_comm _ fault]
  | push =>
    by_cases h : config.maxDepth ≤ depth
    · have := Nat.not_lt_of_le h
      simp [fault?, h, this, @eq_comm _ fault]
    · by_cases hf : (config.lengthAtDepth (depth + 1)).isFinite = true
      · simp [fault?, h, hf]
      · have := Nat.lt_of_not_le h
        simp [fault?, h, hf, this, @eq_comm _ fault]
  | _ => simp [fault?]

theorem fault?_position {config : Config} {depth index : Nat} {op : Op} {fault : WalkError}
    (h : fault? config depth index op = some fault) : fault.position? = some index := by
  rcases fault?_eq_some_iff.mp h with ⟨-, -, rfl⟩ | ⟨-, -, rfl⟩ | ⟨-, -, -, rfl⟩ <;> rfl

/-- The same error, at another index. -/
def WalkError.mapPosition (move : Nat → Nat) : WalkError → WalkError
  | stackUnderflow position => stackUnderflow (move position)
  | stackOverflow limit position => stackOverflow limit (move position)
  | invalidConfig (.strokeLength stroke depth index) =>
    invalidConfig (.strokeLength stroke depth (move index))
  | invalidConfig fault => invalidConfig fault

/-- The fault of an operation does not depend on the index of its symbol, which it only names. -/
theorem fault?_move (config : Config) (depth index : Nat) (move : Nat → Nat) (op : Op) :
    fault? config depth (move index) op =
      (fault? config depth index op).map (WalkError.mapPosition move) := by
  cases op with
  | push =>
    simp only [fault?]
    split
    · rfl
    · split <;> rfl
  | pop =>
    simp only [fault?]
    split <;> rfl
  | _ => rfl

/-- A branch that is closed without a fault was open. -/
theorem pos_of_fault?_pop {config : Config} {depth index : Nat}
    (h : fault? config depth index .pop = none) : 0 < depth := by
  by_cases hzero : depth = 0
  · simp [fault?, hzero] at h
  · omega

/-- A branch is opened without a fault below the limit, and with strokes of a finite length. -/
theorem fault?_push_eq_none_iff {config : Config} {depth index : Nat} :
    fault? config depth index .push = none ↔
      depth < config.maxDepth ∧ (config.lengthAtDepth (depth + 1)).isFinite = true := by
  by_cases hdeep : config.maxDepth ≤ depth
  · simp [fault?, hdeep, Nat.not_lt_of_le hdeep]
  · simp [fault?, hdeep, Nat.lt_of_not_le hdeep]

/-! ### Issuing a color -/

namespace State
variable (state : State)

@[simp] theorem issue_turtle (color : Color) : (state.issue color).turtle = state.turtle := by
  unfold issue
  split <;> rfl

@[simp] theorem issue_saved (color : Color) : (state.issue color).saved = state.saved := by
  unfold issue
  split <;> rfl

@[simp] theorem issue_segments (color : Color) : (state.issue color).segments = state.segments := by
  unfold issue
  split <;> rfl

@[simp] theorem issue_maxDepth (color : Color) : (state.issue color).maxDepth = state.maxDepth := by
  unfold issue
  split <;> rfl

@[simp] theorem issue_log (color : Color) : (state.issue color).log = state.log := by
  unfold issue
  split <;> rfl

@[simp] theorem lineCount_issue (color : Color) :
    lineCount (state.issue color).commands = lineCount state.commands := by
  unfold issue
  split
  · rfl
  · exact lineCount_push _ _

theorem issue_commands (color : Color) :
    ∃ added, (state.issue color).commands = state.commands ++ added := by
  unfold issue
  split
  · exact ⟨#[], by simp⟩
  · exact ⟨#[.setColor color], by simp⟩

end State

/-! ### Obeying an operation -/

section Obey
variable (config : Config) (grammar : Grammar) (symbol : Symbol) (index : Nat) (state : State)

theorem size_obey {op : Op} (h : fault? config state.saved.size index op = none) :
    ((obey config grammar symbol index state op).saved.size : Int) =
      state.saved.size + op.level := by
  cases op with
  | draw => simp [obey, State.draw, Op.level]
  | push => simp [obey, State.push, Op.level]
  | pop =>
    have := pos_of_fault?_pop h
    simp only [obey, State.pop, Op.level, Array.size_pop]
    omega
  | setColor =>
    simp only [obey, Op.level]
    cases grammar.color? symbol <;> simp [State.setColor]
  | _ => simp [obey, Op.level]

theorem segments_obey (op : Op) :
    (obey config grammar symbol index state op).segments =
      state.segments + if op = .draw then 1 else 0 := by
  cases op with
  | draw => simp [obey, State.draw]
  | setColor =>
    simp only [obey]
    cases grammar.color? symbol <;> rfl
  | _ => rfl

theorem maxDepth_obey (op : Op) :
    (obey config grammar symbol index state op).maxDepth =
      max state.maxDepth (if op = .push then state.saved.size + 1 else 0) := by
  cases op with
  | draw => simp [obey, State.draw]
  | push => simp [obey, State.push]
  | setColor =>
    simp only [obey]
    cases grammar.color? symbol <;> simp [State.setColor]
  | _ => simp [obey, State.pop]

theorem lineCount_obey (op : Op) :
    lineCount (obey config grammar symbol index state op).commands =
      lineCount state.commands + if op = .draw then 1 else 0 := by
  cases op with
  | draw => simp [obey, State.draw, lineCount_push, Command.isLine]
  | setColor =>
    simp only [obey]
    cases grammar.color? symbol <;> rfl
  | _ => rfl

/-- What an operation reports: a color symbol without its color. -/
def reported (op : Op) : List LogRecord :=
  if op = .setColor ∧ grammar.color? symbol = none then [.unknownColor symbol index] else []

theorem log_obey (op : Op) : (obey config grammar symbol index state op).log =
    state.log ++ (reported grammar symbol index op).toArray := by
  cases op with
  | draw => simp [obey, State.draw, reported]
  | setColor =>
    simp only [obey, reported]
    cases grammar.color? symbol <;> simp [State.setColor]
  | _ => simp [obey, State.push, State.pop, reported]

/-- Commands are only added. -/
theorem commands_obey (op : Op) :
    ∃ added, (obey config grammar symbol index state op).commands = state.commands ++ added := by
  cases op with
  | draw =>
    obtain ⟨added, h⟩ := state.issue_commands (state.turtle.color.getD config.defaultColor)
    exact ⟨added.push (.line state.turtle.position state.turtle.ahead),
      by simp [obey, State.draw, h, Turtle.forward]⟩
  | setColor =>
    simp only [obey]
    cases grammar.color? symbol <;> exact ⟨#[], by simp [State.setColor]⟩
  | _ => exact ⟨#[], by simp [obey, State.push, State.pop]⟩

end Obey

end LSystem.Walk
