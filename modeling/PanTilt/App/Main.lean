import PanTilt.App.HwInterface

/-!
`main.c`, the main thread: the commands it reads, its states and what it does in each of them.

A line is first compared with the commands of the current state, and then the action of the current
state is taken, also when the line was none of its commands. `harmless_iff` says what follows from
that: a rejected line is without effect exactly when it is read in `STATE_READY`.
-/

namespace PanTilt.App

/-- The states of the main thread. -/
inductive State
  | stateReady
  | stateInit
  | stateHome
  | stateStart
  | stateEnd
  deriving DecidableEq

/-- One step of the main thread: a print, an access to the FPGA, a step on the lock, the flag or the
condition variable it shares with the control thread, or the release of the reset line. -/
inductive Op
  | printf (format : String)
  | hw (op : HwOp)
  | lock
  | unlock
  | setActive (b : Bool)
  | signal
  | releaseResetGpio
  deriving DecidableEq

/-! ### The actions -/

/-- `state_ready`. -/
def stateReady : List Op := [.printf "[READY] Awaiting 'init'\n"]

/-- `state_init`. -/
def stateInit (pl : Platform) : List Op :=
  [.printf "[INIT] Starting init process\n"] ++ (initFpga pl).map .hw ++
    [.printf "[INIT] init Finished Waiting for homing sequence\n"]

/-- `state_home`. -/
def stateHome : List Op :=
  [.printf "[HOME] Starting Homing sequence\n"] ++ homingSequence.map .hw ++
    [.printf "[HOME] Finished Homing sequence, Max yaw: %d, Max pitch: %d\n"]

/-- `state_start`. -/
def stateStart : List Op :=
  [.lock, .setActive true, .signal, .unlock, .printf "[START] Started control thread\n"]

/-- `stop_start_thread`. -/
def stopStartThread : List Op :=
  [.lock, .setActive false, .unlock, .printf "[START] Control thread suspended\n"]

/-- `state_end`. -/
def stateEnd : List Op :=
  [.printf "[END] Stopping system and exiting\n", .hw (.readWrite midWord midWord .current),
    .releaseResetGpio]

/-- The `switch` on the current state. -/
def dispatch (pl : Platform) : State → List Op
  | .stateReady => stateReady
  | .stateInit => stateInit pl
  | .stateHome => stateHome
  | .stateStart => stateStart
  | .stateEnd => stateEnd

/-! ### The loop over the lines -/

/-- The `if` chain over the line: the next state, and what is done on the way. -/
def transition (s : State) (input : String) : State × List Op :=
  if input = "init" ∧ s = .stateReady then (.stateInit, [])
  else if input = "home" ∧ s = .stateInit then (.stateHome, [])
  else if input = "start" ∧ s = .stateHome then (.stateStart, [])
  else if input = "end" ∧ (s = .stateHome ∨ s = .stateStart) then (.stateEnd, stopStartThread)
  else (s, [.printf "Invalid transition or command.\n"])

/-- One line, read in the state `s`: the next state and all steps. -/
def processLine (pl : Platform) (s : State) (input : String) : State × List Op :=
  let t := transition s input
  (t.1, t.2 ++ dispatch pl t.1)

/-- The `while` loop over the lines, up to the end of the input or `STATE_END`. -/
def mainLoop (pl : Platform) : State → List String → State × List Op
  | s, [] => (s, [])
  | s, input :: inputs =>
    let r := processLine pl s input
    if r.1 = .stateEnd then r
    else
      let rest := mainLoop pl r.1 inputs
      (rest.1, r.2 ++ rest.2)

/-- The lines the loop processes, each with the state it is read in. -/
def visited : State → List String → List (State × String)
  | _, [] => []
  | s, input :: inputs =>
    (s, input) ::
      if (transition s input).1 = .stateEnd then [] else visited (transition s input).1 inputs

/-- The line is a command of the state. -/
def Accepts (s : State) (input : String) : Prop :=
  (input = "init" ∧ s = .stateReady) ∨ (input = "home" ∧ s = .stateInit) ∨
    (input = "start" ∧ s = .stateHome) ∨ (input = "end" ∧ (s = .stateHome ∨ s = .stateStart))

instance (s : State) (input : String) : Decidable (Accepts s input) := by
  unfold Accepts; infer_instance

/-- **A line that is no command of the state is answered with the message**, and moves nothing. -/
lemma transition_of_not_accepts {s : State} {input : String} (h : ¬ Accepts s input) :
    transition s input = (s, [.printf "Invalid transition or command.\n"]) := by
  unfold Accepts at h
  push Not at h
  obtain ⟨h₁, h₂, h₃, h₄⟩ := h
  unfold transition
  rw [if_neg (fun e => h₁ e.1 e.2), if_neg (fun e => h₂ e.1 e.2), if_neg (fun e => h₃ e.1 e.2),
    if_neg (fun e => e.2.elim (h₄ e.1).1 (h₄ e.1).2)]

/-! ### Effects -/

/-- The step acts on the hardware: it is an access to the FPGA, or it activates the control
thread. -/
def Op.acts : Op → Bool
  | .hw _ => true
  | .setActive b => b
  | _ => false

/-- The effects among some steps. -/
def effects (ops : List Op) : List Op := ops.filter Op.acts

@[simp] lemma effects_append (as bs : List Op) : effects (as ++ bs) = effects as ++ effects bs :=
  List.filter_append ..

lemma effects_hw (ops : List HwOp) : effects (ops.map .hw) = ops.map .hw := by
  apply List.filter_eq_self.2
  intro op hop
  obtain ⟨o, -, rfl⟩ := List.mem_map.1 hop
  rfl

lemma effects_stateInit (pl : Platform) : effects (stateInit pl) = (initFpga pl).map .hw := by
  rw [stateInit, effects_append, effects_append, effects_hw]
  exact List.append_nil _

lemma effects_stateHome : effects stateHome = homingSequence.map .hw := by
  rw [stateHome, effects_append, effects_append, effects_hw]
  exact List.append_nil _

lemma initFpga_ne_nil (pl : Platform) : initFpga pl ≠ [] :=
  List.append_ne_nil_of_right_ne_nil _ (List.cons_ne_nil _ _)

lemma homingSequence_ne_nil : homingSequence ≠ [] :=
  List.append_ne_nil_of_right_ne_nil _ (List.cons_ne_nil _ _)

theorem effects_dispatch_eq_nil (pl : Platform) (s : State) :
    effects (dispatch pl s) = [] ↔ s = .stateReady := by
  cases s with
  | stateReady => exact iff_of_true rfl rfl
  | stateInit =>
    rw [dispatch, effects_stateInit, List.map_eq_nil_iff]
    exact iff_of_false (initFpga_ne_nil pl) State.noConfusion
  | stateHome =>
    rw [dispatch, effects_stateHome, List.map_eq_nil_iff]
    exact iff_of_false homingSequence_ne_nil State.noConfusion
  | stateStart => simp [dispatch, stateStart, effects, Op.acts]
  | stateEnd => simp [dispatch, stateEnd, effects, Op.acts]

lemma effects_transition (s : State) (input : String) : effects (transition s input).2 = [] := by
  unfold transition
  split_ifs <;> rfl

lemma effects_processLine (pl : Platform) (s : State) (input : String) :
    effects (processLine pl s input).2 = effects (dispatch pl (transition s input).1) := by
  simp [processLine, effects_transition]

/-- The effects of the actions that some accepted lines trigger, in their order. -/
def triggered (pl : Platform) (accepted : List (State × String)) : List Op :=
  accepted.flatMap fun v => effects (dispatch pl (transition v.1 v.2).1)

/-- **The loop takes an action for every line**, accepted or not. -/
theorem effects_mainLoop (pl : Platform) (s : State) (inputs : List String) :
    effects (mainLoop pl s inputs).2 = triggered pl (visited s inputs) := by
  induction inputs generalizing s with
  | nil => rfl
  | cons input inputs ih =>
    simp only [mainLoop, visited]
    rw [show (processLine pl s input).1 = (transition s input).1 from rfl]
    split_ifs with hend
    · rw [effects_processLine]
      simp [triggered]
    · rw [effects_append, effects_processLine, ih]
      rfl

/-! ### Rejected lines -/

/-- The rejected lines among those the loop processes have no effect and leave the state alone, and
the effects of the whole run are those of the actions of the accepted lines, each taken once. -/
def Harmless (pl : Platform) (inputs : List String) : Prop :=
  (∀ v ∈ visited .stateReady inputs, ¬ Accepts v.1 v.2 →
      effects (processLine pl v.1 v.2).2 = [] ∧ (processLine pl v.1 v.2).1 = v.1) ∧
    effects (mainLoop pl .stateReady inputs).2 =
      triggered pl ((visited .stateReady inputs).filter fun v => Accepts v.1 v.2)

/-- **A rejected line is followed by the action of the state it is read in.** -/
lemma processLine_of_not_accepts (pl : Platform) {s : State} {input : String}
    (h : ¬ Accepts s input) :
    (processLine pl s input).1 = s ∧
      (effects (processLine pl s input).2 = [] ↔ s = .stateReady) := by
  rw [effects_processLine, show (processLine pl s input).1 = (transition s input).1 from rfl,
    transition_of_not_accepts h]
  exact ⟨rfl, effects_dispatch_eq_nil pl s⟩

lemma triggered_filter (pl : Platform) (vs : List (State × String))
    (h : ∀ v ∈ vs, ¬ Accepts v.1 v.2 → v.1 = .stateReady) :
    triggered pl (vs.filter fun v => Accepts v.1 v.2) = triggered pl vs := by
  induction vs with
  | nil => rfl
  | cons v vs ih =>
    have ih' := ih fun u hu => h u (List.mem_cons_of_mem _ hu)
    by_cases hv : Accepts v.1 v.2
    · rw [List.filter_cons_of_pos (by simpa using hv)]
      simp only [triggered, List.flatMap_cons] at ih' ⊢
      rw [ih']
    · have hready := h v List.mem_cons_self hv
      have hnil := (effects_dispatch_eq_nil pl v.1).2 hready
      rw [List.filter_cons_of_neg (by simpa using hv), ih']
      simp [triggered, transition_of_not_accepts hv, hnil]

/-- **When rejected lines are harmless**: exactly when all of them are read in `STATE_READY`. In
every other state the switch takes the action of that state once more. -/
theorem harmless_iff (pl : Platform) (inputs : List String) :
    Harmless pl inputs ↔
      ∀ v ∈ visited .stateReady inputs, ¬ Accepts v.1 v.2 → v.1 = .stateReady := by
  constructor
  · rintro ⟨hline, -⟩ v hv hrej
    exact (processLine_of_not_accepts pl hrej).2.1 (hline v hv hrej).1
  · refine fun h => ⟨fun v hv hrej => ?_, ?_⟩
    · obtain ⟨hstate, heff⟩ := processLine_of_not_accepts pl hrej
      exact ⟨heff.2 (h v hv hrej), hstate⟩
    · rw [effects_mainLoop, triggered_filter pl _ h]

/-- An empty line after `init` and `home` drives the motors through the homing sequence again. -/
theorem empty_line_homes_again : ¬ ∀ pl inputs, Harmless pl inputs := by
  intro h
  obtain ⟨hline, -⟩ := h .rpi ["init", "home", ""]
  have hnil := (hline (.stateHome, "") (by decide) (by decide)).1
  rw [effects_processLine, show (transition .stateHome "").1 = .stateHome by decide,
    effects_dispatch_eq_nil] at hnil
  exact absurd hnil (by decide)

end PanTilt.App
