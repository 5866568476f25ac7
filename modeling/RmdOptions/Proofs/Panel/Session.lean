import Mathlib.Data.List.Basic
import Mathlib.Data.List.Induction
import RmdOptions.Panel

/-!
# Sessions

A session is a panel at work on a document. Operations may come in any order: the options may be
asked for again, an answer may come late, twice or not at all, and edits may be committed before
anything is known. What the panel takes for the baseline depends on these operations alone, and not
on the document or on what is found there.

* `Panel.Operation`, `Panel.Session` — what is done, and to what;
* `Baseline.after` — what an operation does to the baseline;
* `Answered`, `Settles`, `Settled` — what a sequence of operations says about the options, told from
  the sequence alone;
* `Session.baseline_run` — the baseline after any sequence of operations.
-/

namespace RmdOptions

namespace Panel

/-- What can be done with a panel and its document. -/
inductive Operation where
  /-- the options are asked for -/
  | request
  /-- an answer comes, which may be a failure -/
  | resolve (answer : Except ExtractError OptionMap)
  /-- the options are set -/
  | seed (options : OptionMap)
  /-- the call is looked for -/
  | locate
  /-- an edit is committed -/
  | commit (edits : Edits)

/-- A panel at work on a document. -/
structure Session where
  /-- the panel -/
  panel : Panel
  /-- the document -/
  doc : Document

namespace Session

/-- The session after an operation. A commit that is refused leaves it as it is. -/
def step (session : Session) : Operation → Session
  | .request => { session with panel := (session.panel.request session.doc).2 }
  | .resolve answer => { session with panel := session.panel.resolve answer }
  | .seed options => { session with panel := session.panel.seed options }
  | .locate => session
  | .commit edits =>
    match session.panel.commit session.doc edits with
    | .ok (_, doc, panel) => ⟨panel, doc⟩
    | .error _ => session

/-- The session after several operations. -/
def run (session : Session) (ops : List Operation) : Session := ops.foldl step session

@[simp] theorem run_nil (session : Session) : session.run [] = session := rfl

@[simp] theorem run_append (session : Session) (ops : List Operation) (op : Operation) :
    session.run (ops ++ [op]) = (session.run ops).step op := by
  rw [run, List.foldl_append]
  rfl

end Session

/-! ## What a sequence of operations says about the options -/

/-- Whether an operation tells the panel what the options are, or that they cannot be had. -/
def Operation.IsAnswer : Operation → Prop
  | .resolve _ => True
  | .seed _ => True
  | _ => False

/-- An answer has come since the options were last asked for, or since the start if they never
were. -/
def Answered (ops : List Operation) : Prop :=
  ∃ before op after, ops = before ++ op :: after ∧ op.IsAnswer ∧ Operation.request ∉ after

/-- The operations that put options in place when they come after others: setting them always does,
and an answer does unless there has been one before. A failure puts no options in place. -/
inductive Settles (before : List Operation) : Operation → OptionMap → Prop
  /-- the options are set -/
  | seed (options : OptionMap) : Settles before (.seed options) options
  /-- the first answer comes -/
  | resolve (answer : Except ExtractError OptionMap) (h : ¬ Answered before) :
    Settles before (.resolve answer) (answer.toOption.getD .empty)

/-- The last of the operations to put options in place put `options` in place, and is followed by
`later`. -/
def Settled (ops : List Operation) (options : OptionMap) (later : List Operation) : Prop :=
  ∃ before op, ops = before ++ op :: later ∧ Settles before op options ∧
    ∀ mid next rest, later = mid ++ next :: rest → ∀ m, ¬ Settles (before ++ op :: mid) next m

/-- The edits that are committed. -/
def Operation.committed (ops : List Operation) : List Edits :=
  ops.filterMap fun
    | .commit edits => some edits
    | _ => none

theorem Operation.committed_append (ops : List Operation) (op : Operation) :
    committed (ops ++ [op]) = committed ops ++ committed [op] := by
  rw [committed, List.filterMap_append]
  rfl

/-- One of several operations and a last one is this last one, or one of those before it. -/
theorem concat_eq_append_cons {ops before after : List Operation} {op first : Operation}
    (h : ops ++ [op] = before ++ first :: after) :
    (after = [] ∧ ops = before ∧ op = first) ∨
      ∃ more, after = more ++ [op] ∧ ops = before ++ first :: more := by
  rcases List.eq_nil_or_concat' after with rfl | ⟨more, last, rfl⟩
  · obtain ⟨rfl, hlast⟩ := List.append_inj' h rfl
    cases hlast
    exact Or.inl ⟨rfl, rfl, rfl⟩
  · rw [← List.cons_append, ← List.append_assoc] at h
    obtain ⟨rfl, hlast⟩ := List.append_inj' h rfl
    cases hlast
    exact Or.inr ⟨more, rfl, rfl⟩

/-- An answer stays one until the options are asked for again. -/
theorem answered_append_iff {ops : List Operation} {op : Operation} :
    Answered (ops ++ [op]) ↔ op.IsAnswer ∨ Answered ops ∧ op ≠ .request := by
  constructor
  · rintro ⟨before, answer, after, heq, hanswer, hafter⟩
    rcases concat_eq_append_cons heq with ⟨-, -, rfl⟩ | ⟨more, rfl, rfl⟩
    · exact Or.inl hanswer
    · rw [List.mem_append, not_or, List.mem_singleton] at hafter
      exact Or.inr ⟨⟨before, answer, more, rfl, hanswer, hafter.1⟩, Ne.symm hafter.2⟩
  · rintro (hanswer | ⟨⟨before, answer, after, rfl, hanswer, hafter⟩, hne⟩)
    · exact ⟨ops, op, [], rfl, hanswer, List.not_mem_nil⟩
    · refine ⟨before, answer, after ++ [op], ?_, hanswer, ?_⟩
      · rw [List.append_assoc, List.cons_append]
      · rw [List.mem_append, not_or, List.mem_singleton]
        exact ⟨hafter, Ne.symm hne⟩

theorem not_answered_nil : ¬ Answered [] := by
  rintro ⟨before, op, after, heq, -, -⟩
  exact List.append_ne_nil_of_right_ne_nil before (List.cons_ne_nil op after) heq.symm

/-- What puts options in place is the last to do so, as nothing has followed it. -/
theorem Settles.settled {ops : List Operation} {op : Operation} {options : OptionMap}
    (h : Settles ops op options) : Settled (ops ++ [op]) options [] := by
  refine ⟨ops, op, rfl, h, ?_⟩
  intro mid next rest heq
  exact absurd heq.symm (List.append_ne_nil_of_right_ne_nil mid (List.cons_ne_nil next rest))

/-- It remains the last when something follows that puts no options in place. -/
theorem Settled.append {ops later : List Operation} {op : Operation} {options : OptionMap}
    (h : Settled ops options later) (hop : ∀ m, ¬ Settles ops op m) :
    Settled (ops ++ [op]) options (later ++ [op]) := by
  obtain ⟨before, first, rfl, hfirst, hlast⟩ := h
  refine ⟨before, first, ?_, hfirst, ?_⟩
  · rw [List.append_assoc, List.cons_append]
  · intro mid next rest heq
    rcases concat_eq_append_cons heq with ⟨-, rfl, rfl⟩ | ⟨more, -, hlater⟩
    · exact hop
    · exact hlast mid next more hlater

end Panel

/-! ## What an operation does to the baseline -/

namespace Baseline

open Panel

/-- The baseline after an operation. -/
def after : Baseline → Operation → Baseline
  | _, .request => .pending
  | .ready options, .resolve _ => .ready options
  | _, .resolve answer => .ready (answer.toOption.getD .empty)
  | _, .seed options => .ready options
  | baseline, .locate => baseline
  | .ready options, .commit edits => .ready (options.merge edits)
  | baseline, .commit _ => baseline

/-- How a baseline can come to be known: it is put in place, or it was known before and has at most
been edited. -/
theorem after_eq_ready {baseline : Baseline} {op : Operation} {m : OptionMap}
    (h : baseline.after op = .ready m) :
    op = .seed m ∨
      (∃ answer, op = .resolve answer ∧ (∀ known, baseline ≠ .ready known) ∧
        m = answer.toOption.getD .empty) ∨
      ∃ known, baseline = .ready known ∧ op ≠ .request ∧ (∀ options, op ≠ .seed options) ∧
        m = (Operation.committed [op]).foldl OptionMap.merge known := by
  cases op with
  | request => cases h
  | seed options =>
    cases h
    exact Or.inl rfl
  | resolve answer =>
    cases baseline with
    | ready known =>
      cases h
      exact Or.inr (Or.inr ⟨m, rfl, nofun, nofun, rfl⟩)
    | unrequested =>
      cases h
      exact Or.inr (Or.inl ⟨answer, rfl, nofun, rfl⟩)
    | pending =>
      cases h
      exact Or.inr (Or.inl ⟨answer, rfl, nofun, rfl⟩)
  | locate =>
    obtain rfl : baseline = .ready m := h
    exact Or.inr (Or.inr ⟨m, rfl, nofun, nofun, rfl⟩)
  | commit edits =>
    cases baseline with
    | ready known =>
      cases h
      exact Or.inr (Or.inr ⟨known, rfl, nofun, nofun, rfl⟩)
    | unrequested => cases h
    | pending => cases h

/-- An answer makes the baseline known, and it stays so until the options are asked for again. -/
theorem exists_after_eq_ready_iff {baseline : Baseline} {op : Operation} :
    (∃ m, baseline.after op = .ready m) ↔
      op.IsAnswer ∨ (∃ m, baseline = .ready m) ∧ op ≠ .request := by
  constructor
  · rintro ⟨m, h⟩
    rcases after_eq_ready h with rfl | ⟨answer, rfl, -, -⟩ | ⟨known, hknown, hne, -, -⟩
    · exact Or.inl trivial
    · exact Or.inl trivial
    · exact Or.inr ⟨⟨known, hknown⟩, hne⟩
  · rintro (hanswer | ⟨⟨m, rfl⟩, hne⟩)
    · cases op with
      | seed options => exact ⟨options, rfl⟩
      | resolve answer => cases baseline <;> exact ⟨_, rfl⟩
      | request => cases hanswer
      | locate => cases hanswer
      | commit edits => cases hanswer
    · cases op with
      | request => exact absurd rfl hne
      | seed options => exact ⟨options, rfl⟩
      | resolve answer => exact ⟨m, rfl⟩
      | locate => exact ⟨m, rfl⟩
      | commit edits => exact ⟨m.merge edits, rfl⟩

/-- A baseline that nobody has asked for is known after some operations exactly when they include an
answer that came after the last request. -/
theorem ready_foldl_iff (ops : List Operation) :
    (∃ m, ops.foldl after .unrequested = .ready m) ↔ Answered ops := by
  induction ops using List.reverseRecOn with
  | nil => exact ⟨nofun, fun h => absurd h not_answered_nil⟩
  | append_singleton ops op ih =>
    rw [List.foldl_append, answered_append_iff, ← ih]
    exact exists_after_eq_ready_iff

/-- **A baseline that is known** is what was last put in place, with all later edits. -/
theorem exists_settled (ops : List Operation) {m : OptionMap}
    (h : ops.foldl after .unrequested = .ready m) :
    ∃ options later, Settled ops options later ∧
      m = (Operation.committed later).foldl OptionMap.merge options := by
  induction ops using List.reverseRecOn generalizing m with
  | nil => cases h
  | append_singleton ops op ih =>
    rw [List.foldl_append] at h
    rcases after_eq_ready h with rfl | ⟨answer, rfl, hunknown, rfl⟩ | ⟨known, hknown, -, hseed, rfl⟩
    · exact ⟨m, [], (Settles.seed m).settled, rfl⟩
    · have hnew : ¬ Answered ops := by
        rw [← ready_foldl_iff]
        rintro ⟨known, hknown⟩
        exact hunknown known hknown
      exact ⟨_, [], (Settles.resolve answer hnew).settled, rfl⟩
    · have hanswered : Answered ops := (ready_foldl_iff ops).mp ⟨known, hknown⟩
      obtain ⟨options, later, hsettled, rfl⟩ := ih hknown
      refine ⟨options, later ++ [op], hsettled.append ?_, ?_⟩
      · intro m hm
        cases hm with
        | seed => exact hseed m rfl
        | resolve answer hnew => exact hnew hanswered
      · rw [Operation.committed_append, List.foldl_append]

end Baseline

/-! ## Runs -/

namespace Panel

/-- A commit is refused only when the baseline is not known. -/
theorem commit_eq_error_iff {panel : Panel} {doc : Document} {edits : Edits} :
    panel.commit doc edits = .error .baselineNotReady ↔ ¬ ∃ m, panel.baseline = .ready m := by
  rw [commit, commitAt]
  cases panel.baseline with
  | unrequested => exact ⟨fun _ => nofun, fun _ => rfl⟩
  | pending => exact ⟨fun _ => nofun, fun _ => rfl⟩
  | ready m => exact ⟨nofun, fun h => absurd ⟨m, rfl⟩ h⟩

namespace Session

/-- **The document has no part in the panel.** An operation changes the baseline of the panel and
nothing else. -/
theorem panel_step (session : Session) (op : Operation) :
    (session.step op).panel =
      { session.panel with baseline := session.panel.baseline.after op } := by
  obtain ⟨⟨chunkStart, tokenize, config, baseline⟩, doc⟩ := session
  cases op with
  | request => rfl
  | resolve answer => cases baseline <;> cases answer <;> rfl
  | seed options => cases baseline <;> rfl
  | locate => cases baseline <;> rfl
  | commit edits => cases baseline <;> rfl

theorem panel_run (session : Session) (ops : List Operation) :
    (session.run ops).panel =
      { session.panel with baseline := ops.foldl Baseline.after session.panel.baseline } := by
  induction ops using List.reverseRecOn with
  | nil => rfl
  | append_singleton ops op ih =>
    rw [run_append, panel_step, ih, List.foldl_append]
    rfl

theorem baseline_run_eq (session : Session) (ops : List Operation) :
    (session.run ops).panel.baseline = ops.foldl Baseline.after session.panel.baseline := by
  rw [panel_run]

/-- A commit that is refused leaves the session. -/
theorem step_commit_of_error {session : Session} {edits : Edits} {error : CommitError}
    (h : session.panel.commit session.doc edits = .error error) :
    session.step (.commit edits) = session := by
  rw [step, h]

/-- An answer that comes late leaves the session. -/
theorem step_resolve_of_ready {session : Session} {m : OptionMap}
    (h : session.panel.baseline = .ready m) (answer : Except ExtractError OptionMap) :
    session.step (.resolve answer) = session := by
  obtain ⟨panel, doc⟩ := session
  have hpanel : panel.resolve answer = panel := by
    simp only [resolve, show panel.baseline = .ready m from h]
  rw [step, hpanel]

/-- **The life of a baseline.** Whatever is done after a panel has been opened, the baseline is
known exactly when an answer came after the last request. It is then what was put in place last,
with all later edits merged into it, and further answers are ignored. A commit is refused exactly
when the baseline is not known, and then it leaves the document and the panel. -/
theorem baseline_run (chunkStart : Position) (tokenize : Text → List Token) (config : Config)
    (doc : Document) (ops : List Operation) :
    let session := (⟨Panel.new chunkStart tokenize config, doc⟩ : Session).run ops
    ((∃ m, session.panel.baseline = .ready m) ↔ Answered ops) ∧
      (∀ m, session.panel.baseline = .ready m →
        (∃ options later, Settled ops options later ∧
          m = (Operation.committed later).foldl OptionMap.merge options) ∧
        ∀ answer, session.step (.resolve answer) = session) ∧
      ∀ edits,
        (session.panel.commit session.doc edits = .error .baselineNotReady ↔
          ¬ ∃ m, session.panel.baseline = .ready m) ∧
        ∀ error, session.panel.commit session.doc edits = .error error →
          error = .baselineNotReady ∧ session.step (.commit edits) = session := by
  intro session
  have hbaseline : session.panel.baseline = ops.foldl Baseline.after .unrequested :=
    baseline_run_eq _ ops
  refine ⟨?_, ?_, ?_⟩
  · rw [hbaseline]
    exact Baseline.ready_foldl_iff ops
  · intro m hm
    refine ⟨Baseline.exists_settled ops (hbaseline ▸ hm), ?_⟩
    exact step_resolve_of_ready hm
  · intro edits
    refine ⟨commit_eq_error_iff, ?_⟩
    intro error herror
    cases error
    exact ⟨rfl, step_commit_of_error herror⟩

end Session

end Panel

end RmdOptions
