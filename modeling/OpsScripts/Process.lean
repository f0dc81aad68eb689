/-
# Scripts: programs of atomic commands under a clock

A script is a list of statements: a command, or a test with a list of
commands for each outcome. Commands and tests are atomic. Time passes before
each of them, as much as the world says (`World.delay`), so the clock never
goes back; what the programs a command starts print comes from the world
too (`World.out`).

Two ways to run scripts:

* `exec` runs a whole script with nobody else acting;
* `Config.run` interleaves any number of processes, each at its own place in
  its script, one command or test at a time.

A machine remembers the commands it has run and the state each of them met
(`Machine.past`); nothing reads it, it is there to speak about runs.

A property of machines that every command preserves, and that time passing
preserves, holds after a script (`exec_induct`) and in every state of an
interleaving (`Config.run_induct`). `exec_induct_past` and
`Config.run_induct_past` are the same for runs all of whose commands met a
state of some kind. A process that runs while the others wait does what `exec`
does (`Config.run_alone`). If commands and tests do to the images of states
what they do to the states, so do interleavings (`Simulates.run`).
-/
import OpsScripts.Text

namespace OpsScripts

/-- What a script cannot know beforehand: how much time passes before its
`k`-th action, counted over the whole run, and what is printed in it. -/
structure World where
  delay : ℕ → ℕ
  out : ℕ → Text

/-- The clock, the number of the action and the printed text an action meets. -/
structure Moment where
  now : ℕ
  tick : ℕ
  out : Text

/-- A command that was run, when, and the state it met. -/
structure Step (κ σ : Type) where
  cmd : κ
  moment : Moment
  before : σ

/-- A state, the clock, the number of actions so far and the commands among
them, the first one first. -/
structure Machine (κ σ : Type) where
  state : σ
  now : ℕ
  tick : ℕ
  past : List (Step κ σ)

/-- A statement: a command, or a test and the commands for its outcomes. -/
inductive Stmt (κ τ : Type)
  | cmd (c : κ)
  | ite (b : τ) (yes no : List κ)

/-- What commands do and when tests hold. -/
structure Semantics (κ τ σ : Type) where
  effect : κ → Moment → σ → σ
  holds : τ → σ → Bool

variable {κ τ σ : Type}

/-- The commands a statement can run. -/
def Stmt.cmds : Stmt κ τ → List κ
  | cmd c => [c]
  | ite _ yes no => yes ++ no

/-- A machine that has not done anything yet. -/
def Machine.start (s : σ) (now : ℕ) : Machine κ σ := ⟨s, now, 0, []⟩

/-- The state a command left. -/
def Step.after (S : Semantics κ τ σ) (s : Step κ σ) : σ := S.effect s.cmd s.moment s.before

/-- The next moment. -/
def Machine.moment (w : World) (m : Machine κ σ) : Moment :=
  ⟨m.now + w.delay m.tick, m.tick, w.out m.tick⟩

theorem Machine.now_le_moment (w : World) (m : Machine κ σ) : m.now ≤ (m.moment w).now :=
  Nat.le_add_right ..

/-- A test at the next moment: time passes. -/
def Machine.pass (w : World) (m : Machine κ σ) : Machine κ σ :=
  ⟨m.state, (m.moment w).now, m.tick + 1, m.past⟩

@[simp] theorem Machine.pass_state (w : World) (m : Machine κ σ) : (m.pass w).state = m.state := rfl

@[simp] theorem Machine.pass_past (w : World) (m : Machine κ σ) : (m.pass w).past = m.past := rfl

/-- The next step of a machine that runs the command `c`. -/
def Machine.step (w : World) (m : Machine κ σ) (c : κ) : Step κ σ := ⟨c, m.moment w, m.state⟩

variable (S : Semantics κ τ σ) (w : World)

/-! ### A whole script -/

/-- One command. -/
def execCmd (m : Machine κ σ) (c : κ) : Machine κ σ :=
  ⟨(m.step w c).after S, (m.moment w).now, m.tick + 1, m.past ++ [m.step w c]⟩

@[simp] theorem execCmd_state (m : Machine κ σ) (c : κ) :
    (execCmd S w m c).state = S.effect c (m.moment w) m.state := rfl

@[simp] theorem execCmd_now (m : Machine κ σ) (c : κ) : (execCmd S w m c).now = (m.moment w).now := rfl

@[simp] theorem execCmd_past (m : Machine κ σ) (c : κ) :
    (execCmd S w m c).past = m.past ++ [m.step w c] := rfl

/-- One statement. -/
def execStmt (m : Machine κ σ) : Stmt κ τ → Machine κ σ
  | .cmd c => execCmd S w m c
  | .ite b yes no => (if S.holds b m.state then yes else no).foldl (execCmd S w) (m.pass w)

/-- A script from its first statement to its last. -/
def exec (prog : List (Stmt κ τ)) (m : Machine κ σ) : Machine κ σ := prog.foldl (execStmt S w) m

@[simp] theorem exec_nil (m : Machine κ σ) : exec S w [] m = m := rfl

@[simp] theorem exec_cons (s : Stmt κ τ) (prog : List (Stmt κ τ)) (m : Machine κ σ) :
    exec S w (s :: prog) m = exec S w prog (execStmt S w m s) := rfl

theorem exec_append (p q : List (Stmt κ τ)) (m : Machine κ σ) :
    exec S w (p ++ q) m = exec S w q (exec S w p m) :=
  List.foldl_append ..

/-- A script without tests. -/
theorem exec_map_cmd (cs : List κ) (m : Machine κ σ) :
    exec S w (cs.map Stmt.cmd : List (Stmt κ τ)) m = cs.foldl (execCmd S w) m := by
  rw [exec, List.foldl_map]
  rfl

/-- What every statement preserves, a script preserves. -/
theorem exec_induct_stmt {I : Machine κ σ → Prop} : ∀ (prog : List (Stmt κ τ)),
    (∀ s ∈ prog, ∀ m, I m → I (execStmt S w m s)) → ∀ m, I m → I (exec S w prog m)
  | [], _, _, h => h
  | s :: prog, hs, m, h =>
    exec_induct_stmt prog (fun r hr => hs r (List.mem_cons_of_mem _ hr)) _ (hs s List.mem_cons_self m h)

theorem foldl_execCmd_induct {I : Machine κ σ → Prop} : ∀ (cs : List κ),
    (∀ c ∈ cs, ∀ m, I m → I (execCmd S w m c)) → ∀ m, I m → I (cs.foldl (execCmd S w) m)
  | [], _, _, h => h
  | c :: cs, hc, m, h =>
    foldl_execCmd_induct cs (fun d hd => hc d (List.mem_cons_of_mem _ hd)) _
      (hc c List.mem_cons_self m h)

theorem execStmt_induct {I : Machine κ σ → Prop} (s : Stmt κ τ)
    (hcmd : ∀ c ∈ s.cmds, ∀ m, I m → I (execCmd S w m c))
    (hpass : ∀ m, I m → I (m.pass w)) (m : Machine κ σ) (h : I m) : I (execStmt S w m s) := by
  cases s with
  | cmd c => exact hcmd c List.mem_cons_self m h
  | ite b yes no =>
    refine foldl_execCmd_induct S w _ (fun c hc => hcmd c ?_) _ (hpass m h)
    simp only [Stmt.cmds, List.mem_append]
    split at hc
    · exact Or.inl hc
    · exact Or.inr hc

/-- **What every command preserves, a script preserves.** -/
theorem exec_induct {I : Machine κ σ → Prop} (prog : List (Stmt κ τ))
    (hcmd : ∀ s ∈ prog, ∀ c ∈ s.cmds, ∀ m, I m → I (execCmd S w m c))
    (hpass : ∀ m, I m → I (m.pass w)) (m : Machine κ σ) (h : I m) : I (exec S w prog m) := by
  induction prog generalizing m with
  | nil => exact h
  | cons s prog ih =>
    exact ih (fun r hr => hcmd r (List.mem_cons_of_mem _ hr)) _
      (execStmt_induct S w s (hcmd s List.mem_cons_self) hpass m h)

/-- The same for a script all of whose steps are of the kind `K`. -/
theorem exec_induct_past {I : Machine κ σ → Prop} {K : Step κ σ → Prop} (prog : List (Stmt κ τ))
    (hcmd : ∀ s ∈ prog, ∀ c ∈ s.cmds, ∀ m, K (m.step w c) → I m → I (execCmd S w m c))
    (hpass : ∀ m, I m → I (m.pass w)) (m : Machine κ σ) (h : I m)
    (hK : ∀ s ∈ (exec S w prog m).past, K s) : I (exec S w prog m) := by
  refine exec_induct (I := fun m => (∀ s ∈ m.past, K s) → I m) S w prog (fun r hr c hc m ih hK => ?_)
    (fun m ih hK => hpass m (ih hK)) m (fun _ => h) hK
  rw [execCmd_past, List.forall_mem_append, List.forall_mem_singleton] at hK
  exact hcmd r hr c hc m hK.2 (ih hK.1)

/-- A script does not turn the clock back. -/
theorem now_le_exec (prog : List (Stmt κ τ)) (m : Machine κ σ) : m.now ≤ (exec S w prog m).now :=
  exec_induct (I := fun m' => m.now ≤ m'.now) S w prog (fun _ _ _ _ m' h => h.trans (m'.now_le_moment w))
    (fun m' h => h.trans (m'.now_le_moment w)) m le_rfl

/-- Nor the count of actions. -/
theorem tick_le_exec (prog : List (Stmt κ τ)) (m : Machine κ σ) : m.tick ≤ (exec S w prog m).tick :=
  exec_induct (I := fun m' => m.tick ≤ m'.tick) S w prog (fun _ _ _ _ _ h => Nat.le_succ_of_le h)
    (fun _ h => Nat.le_succ_of_le h) m le_rfl

/-- What was done stays done. -/
theorem past_subset_exec (prog : List (Stmt κ τ)) (m : Machine κ σ) : m.past ⊆ (exec S w prog m).past :=
  exec_induct (I := fun m' => m.past ⊆ m'.past) S w prog
    (fun _ _ _ _ _ h => List.subset_append_of_subset_left _ h) (fun _ h => h) m (List.Subset.refl _)

/-- The commands a script has run are its own. -/
theorem cmd_of_mem_past {A : κ → Prop} (prog : List (Stmt κ τ)) (hA : ∀ s ∈ prog, ∀ c ∈ s.cmds, A c) (m : Machine κ σ)
    (hm : ∀ s ∈ m.past, A s.cmd) : ∀ s ∈ (exec S w prog m).past, A s.cmd := by
  refine exec_induct (I := fun m => ∀ s ∈ m.past, A s.cmd) S w prog (fun r hr c hc m h => ?_) (fun _ h => h) m hm
  rw [execCmd_past, List.forall_mem_append, List.forall_mem_singleton]
  exact ⟨h, hA r hr c hc⟩

/-- What was done was done before now. -/
theorem moment_le_of_mem_past (prog : List (Stmt κ τ)) (m : Machine κ σ) (hm : ∀ s ∈ m.past, s.moment.now ≤ m.now) :
    ∀ s ∈ (exec S w prog m).past, s.moment.now ≤ (exec S w prog m).now := by
  refine exec_induct (I := fun m => ∀ s ∈ m.past, s.moment.now ≤ m.now) S w prog (fun r hr c hc m h => ?_)
    (fun m h s hs => (h s hs).trans (m.now_le_moment w)) m hm
  rw [execCmd_past, List.forall_mem_append, List.forall_mem_singleton]
  exact ⟨fun s hs => (h s hs).trans (m.now_le_moment w), le_rfl⟩

/-- While no time passes the clock stands. -/
theorem now_exec_of_delay (hw : ∀ k, w.delay k = 0) (prog : List (Stmt κ τ)) (m : Machine κ σ) :
    (exec S w prog m).now = m.now := by
  have hmoment : ∀ m' : Machine κ σ, (m'.moment w).now = m'.now := fun m' => by simp [Machine.moment, hw]
  exact exec_induct (I := fun m' => m'.now = m.now) S w prog (fun _ _ _ _ m' h => (hmoment m').trans h)
    (fun m' h => (hmoment m').trans h) m rfl

/-! ### Interleaving -/

/-- The machine and what every process still has to do. -/
structure Config (κ τ σ : Type) where
  machine : Machine κ σ
  procs : List (List (Stmt κ τ))

/-- A process starts a script, which reads the clock first, or process `i`
takes its next action. -/
inductive Event (κ τ : Type)
  | start (script : ℕ → List (Stmt κ τ))
  | go (i : ℕ)

namespace Config

/-- One event. A process that is done, or does not exist, does nothing. -/
def step (c : Config κ τ σ) : Event κ τ → Config κ τ σ
  | .start script => { c with procs := c.procs ++ [script c.machine.now] }
  | .go i =>
    match c.procs[i]? with
    | some (.cmd k :: rest) => ⟨execCmd S w c.machine k, c.procs.set i rest⟩
    | some (.ite b yes no :: rest) =>
      ⟨c.machine.pass w,
        c.procs.set i ((if S.holds b c.machine.state then yes else no).map Stmt.cmd ++ rest)⟩
    | _ => c

/-- A run of events. -/
def run (c : Config κ τ σ) (es : List (Event κ τ)) : Config κ τ σ := es.foldl (step S w) c

@[simp] theorem run_nil (c : Config κ τ σ) : c.run S w [] = c := rfl

@[simp] theorem run_cons (c : Config κ τ σ) (e : Event κ τ) (es : List (Event κ τ)) :
    c.run S w (e :: es) = (c.step S w e).run S w es := rfl

theorem run_append (c : Config κ τ σ) (es fs : List (Event κ τ)) :
    c.run S w (es ++ fs) = (c.run S w es).run S w fs :=
  List.foldl_append ..

/-- Every process has only commands of the kind `A` left. -/
def Uses (A : κ → Prop) (c : Config κ τ σ) : Prop :=
  ∀ prog ∈ c.procs, ∀ s ∈ prog, ∀ k ∈ s.cmds, A k

/-- Every script that is started has only commands of the kind `A`. -/
def Starts (A : κ → Prop) (es : List (Event κ τ)) : Prop :=
  ∀ script, Event.start script ∈ es → ∀ t, ∀ s ∈ script t, ∀ k ∈ s.cmds, A k

/-- A step runs one command of a process, or lets time pass, or neither. -/
theorem step_cases {A : κ → Prop} {c : Config κ τ σ} (hA : c.Uses A) (e : Event κ τ)
    (he : ∀ script, e = .start script → ∀ t, ∀ s ∈ script t, ∀ k ∈ s.cmds, A k) :
    (c.step S w e).Uses A ∧
      ((c.step S w e).machine = c.machine ∨ (c.step S w e).machine = c.machine.pass w ∨
        ∃ k, A k ∧ (c.step S w e).machine = execCmd S w c.machine k) := by
  cases e with
  | start script =>
    refine ⟨fun prog hp => ?_, Or.inl rfl⟩
    rcases List.mem_append.mp hp with hp | hp
    · exact hA prog hp
    · rw [List.mem_singleton] at hp
      subst hp
      exact he script rfl _
  | go i =>
    simp only [step]
    split
    · rename_i k rest hi
      have hmem := List.mem_of_getElem? hi
      refine ⟨fun prog hp => ?_, Or.inr (Or.inr ⟨k, ?_, rfl⟩)⟩
      · rcases List.mem_or_eq_of_mem_set hp with hp | rfl
        · exact hA prog hp
        · exact fun s hs => hA _ hmem s (List.mem_cons_of_mem _ hs)
      · exact hA _ hmem _ List.mem_cons_self k List.mem_cons_self
    · rename_i b yes no rest hi
      have hmem := List.mem_of_getElem? hi
      refine ⟨fun prog hp => ?_, Or.inr (Or.inl rfl)⟩
      rcases List.mem_or_eq_of_mem_set hp with hp | rfl
      · exact hA prog hp
      · intro s hs k hk
        rcases List.mem_append.mp hs with hs | hs
        · obtain ⟨k', hk', rfl⟩ := List.mem_map.mp hs
          obtain rfl : k = k' := by simpa [Stmt.cmds] using hk
          refine hA _ hmem _ List.mem_cons_self k ?_
          simp only [Stmt.cmds, List.mem_append]
          split at hk'
          · exact Or.inl hk'
          · exact Or.inr hk'
        · exact hA _ hmem s (List.mem_cons_of_mem _ hs) k hk
    · exact ⟨hA, Or.inl rfl⟩

/-- **What every command preserves holds in every state of an
interleaving.** -/
theorem run_induct {A : κ → Prop} {I : Machine κ σ → Prop}
    (hcmd : ∀ k, A k → ∀ m, I m → I (execCmd S w m k)) (hpass : ∀ m, I m → I (m.pass w)) :
    ∀ (es : List (Event κ τ)) (c : Config κ τ σ), c.Uses A → Starts A es → I c.machine →
      I (c.run S w es).machine
  | [], _, _, _, h => h
  | e :: es, c, hA, hs, h => by
    obtain ⟨hA', hm⟩ := step_cases S w hA e fun script he t s hst k hk =>
      hs script (he ▸ List.mem_cons_self) t s hst k hk
    refine run_induct hcmd hpass es _ hA' (fun script he => hs script (List.mem_cons_of_mem _ he)) ?_
    rcases hm with hm | hm | ⟨k, hk, hm⟩
    · rw [hm]; exact h
    · rw [hm]; exact hpass _ h
    · rw [hm]; exact hcmd k hk _ h

/-- The same for a run all of whose steps are of the kind `K`. -/
theorem run_induct_past {A : κ → Prop} {I : Machine κ σ → Prop} {K : Step κ σ → Prop}
    (hcmd : ∀ k, A k → ∀ m, K (m.step w k) → I m → I (execCmd S w m k)) (hpass : ∀ m, I m → I (m.pass w))
    (es : List (Event κ τ)) (c : Config κ τ σ) (hA : c.Uses A) (hs : Starts A es) (h : I c.machine)
    (hK : ∀ s ∈ (c.run S w es).machine.past, K s) : I (c.run S w es).machine := by
  refine run_induct (I := fun m => (∀ s ∈ m.past, K s) → I m) S w (fun k hk m ih hK => ?_)
    (fun m ih hK => hpass m (ih hK)) es c hA hs (fun _ => h) hK
  rw [execCmd_past, List.forall_mem_append, List.forall_mem_singleton] at hK
  exact hcmd k hk m hK.2 (ih hK.1)

/-- The process between `ps` and `qs`. -/
theorem getElem?_middle (ps qs : List (List (Stmt κ τ))) (prog : List (Stmt κ τ)) :
    (ps ++ prog :: qs)[ps.length]? = some prog := by
  simp

theorem set_middle (ps qs : List (List (Stmt κ τ))) (prog rest : List (Stmt κ τ)) :
    (ps ++ prog :: qs).set ps.length rest = ps ++ rest :: qs := by
  simp

/-- A process works off a list of commands. -/
theorem run_cmds (ps qs : List (List (Stmt κ τ))) : ∀ (cs : List κ) (rest : List (Stmt κ τ)) (m : Machine κ σ),
    (⟨m, ps ++ (cs.map Stmt.cmd ++ rest) :: qs⟩ : Config κ τ σ).run S w
      (List.replicate cs.length (.go ps.length)) = ⟨cs.foldl (execCmd S w) m, ps ++ rest :: qs⟩
  | [], _, _ => rfl
  | c :: cs, rest, m => by
    rw [List.length_cons, List.replicate_succ, run_cons, step, getElem?_middle]
    simp only [List.map_cons, List.cons_append, set_middle]
    exact run_cmds ps qs cs rest (execCmd S w m c)

/-- **A process that runs while the others wait runs its script**, or the
part of it in front of `rest`. -/
theorem run_alone (ps qs : List (List (Stmt κ τ))) (rest : List (Stmt κ τ)) :
    ∀ (prog : List (Stmt κ τ)) (m : Machine κ σ), ∃ n,
      (⟨m, ps ++ (prog ++ rest) :: qs⟩ : Config κ τ σ).run S w (List.replicate n (.go ps.length)) =
        ⟨exec S w prog m, ps ++ rest :: qs⟩
  | [], m => ⟨0, rfl⟩
  | .cmd c :: prog, m => by
    obtain ⟨n, hn⟩ := run_alone ps qs rest prog (execCmd S w m c)
    refine ⟨n + 1, ?_⟩
    rw [List.cons_append, List.replicate_succ, run_cons, step, getElem?_middle]
    simp only [set_middle]
    exact hn
  | .ite b yes no :: prog, m => by
    obtain ⟨cs, hcs⟩ : ∃ cs, cs = if S.holds b m.state then yes else no := ⟨_, rfl⟩
    obtain ⟨n, hn⟩ := run_alone ps qs rest prog (cs.foldl (execCmd S w) (m.pass w))
    refine ⟨cs.length + n + 1, ?_⟩
    rw [List.cons_append, List.replicate_succ, run_cons, step, getElem?_middle]
    simp only [set_middle]
    rw [← hcs, List.replicate_add, run_append, run_cmds, hn, exec_cons, hcs]
    rfl

end Config

/-! ### Simulation -/

section Simulation

variable {ρ : Type}

/-- Every command and every test does to the images under `φ` what it does to
the states. -/
structure Simulates (S : Semantics κ τ σ) (T : Semantics κ τ ρ) (φ : σ → ρ) : Prop where
  effect (c : κ) (mo : Moment) (s : σ) : φ (S.effect c mo s) = T.effect c mo (φ s)
  holds (b : τ) (s : σ) : T.holds b (φ s) = S.holds b s

def Step.map (φ : σ → ρ) (s : Step κ σ) : Step κ ρ := ⟨s.cmd, s.moment, φ s.before⟩

def Machine.map (φ : σ → ρ) (m : Machine κ σ) : Machine κ ρ :=
  ⟨φ m.state, m.now, m.tick, m.past.map (Step.map φ)⟩

def Config.map (φ : σ → ρ) (c : Config κ τ σ) : Config κ τ ρ := ⟨c.machine.map φ, c.procs⟩

@[simp] theorem Machine.map_state (φ : σ → ρ) (m : Machine κ σ) : (m.map φ).state = φ m.state := rfl

@[simp] theorem Machine.map_past (φ : σ → ρ) (m : Machine κ σ) : (m.map φ).past = m.past.map (Step.map φ) := rfl

namespace Simulates

variable {S} {T : Semantics κ τ ρ} {φ : σ → ρ}

theorem after (h : Simulates S T φ) (s : Step κ σ) : (s.map φ).after T = φ (s.after S) :=
  (h.effect s.cmd s.moment s.before).symm

theorem execCmd (h : Simulates S T φ) (m : Machine κ σ) (c : κ) :
    (execCmd S w m c).map φ = OpsScripts.execCmd T w (m.map φ) c := by
  simp only [OpsScripts.execCmd, Machine.map, List.map_append, List.map_cons, List.map_nil]
  rw [← h.after]
  rfl

theorem step (h : Simulates S T φ) (c : Config κ τ σ) (e : Event κ τ) :
    (c.step S w e).map φ = (c.map φ).step T w e := by
  cases e with
  | start script => rfl
  | go i =>
    have hholds : ∀ b, T.holds b (c.map φ).machine.state = S.holds b c.machine.state := fun b => h.holds b _
    have hprocs : (c.map φ).procs = c.procs := rfl
    simp only [Config.step, hprocs, hholds]
    split
    · simp only [Config.map, h.execCmd]
    · rfl
    · rfl

/-- **Running and then mapping is mapping and then running.** -/
theorem run (h : Simulates S T φ) : ∀ (es : List (Event κ τ)) (c : Config κ τ σ),
    (c.run S w es).map φ = (c.map φ).run T w es
  | [], _ => rfl
  | e :: es, c => by rw [Config.run_cons, Config.run_cons, h.run es, h.step]

end Simulates

end Simulation

end OpsScripts
