import AcidKv.Node.Calls
import AcidKv.Lib.Runs

/-!
# Runs with a clock

The clients of a node take their timestamps from one strictly increasing clock.  A timeline is a
configuration together with the draws made so far and what each was drawn for; drawing is an
action of its own, so that a timestamp may be old when it is used.

`Disciplined` is what clients who follow the protocol keep to.  A transaction is named by its
start timestamp, and draws a commit timestamp only after all of its prewrites returned `Ok`.
-/

namespace AcidKv

/-- What a timestamp is drawn for. -/
inductive Use where
  | start
  | commit (startTs : UInt64)
  | read
  deriving DecidableEq

inductive Action where
  | draw (ts : UInt64) (use : Use)
  | serve (event : Event)

structure Timeline where
  drawn : List (UInt64 × Use)
  config : Config

namespace Timeline

def init : Timeline := ⟨[], Config.init⟩

def step (t : Timeline) : Action → Timeline
  | .draw ts use => { t with drawn := t.drawn ++ [(ts, use)] }
  | .serve e => { t with config := t.config.step e }

def steps (t : Timeline) (as : List Action) : Timeline := as.foldl step t

/-- What a client may do next. -/
def Disciplined (t : Timeline) : Action → Prop
  | .draw ts use => (∀ d ∈ t.drawn, d.1 < ts) ∧
      match use with
      | .commit s => ∀ en ∈ t.config.log, ∀ ms p ttl,
          en.event.call.prewriteArgs = some (s, ms, p, ttl) → en.reply = some (.ok .done)
      | _ => True
  | .serve e =>
      match e.call with
      | .prewrite s _ _ _ => (s, .start) ∈ t.drawn ∧ ∀ ct, (ct, .commit s) ∉ t.drawn
      | .batchPrewrite s _ _ _ => (s, .start) ∈ t.drawn ∧ ∀ ct, (ct, .commit s) ∉ t.drawn
      | .commit s ct _ => (ct, .commit s) ∈ t.drawn
      | .batchCommit s ct _ => (ct, .commit s) ∈ t.drawn
      | .rollback s _ => (s, .start) ∈ t.drawn
      | .get _ r => ∃ use, (r, use) ∈ t.drawn
      | .heartbeat _ _ _ => True
      | .checkTxnStatus _ _ => True
      | .scan _ _ _ _ => False
      | .gc _ => False

lemma steps_append (t : Timeline) (as as' : List Action) :
    t.steps (as ++ as') = (t.steps as).steps as' := List.foldl_append

lemma guarded_steps {ok : Timeline → Action → Prop} {t : Timeline} {as as' : List Action} :
    Guarded step ok t (as ++ as') ↔ Guarded step ok t as ∧ Guarded step ok (t.steps as) as' :=
  guarded_append

end Timeline

/-- The requests among the actions of a timeline. -/
def served (as : List Action) : List Event :=
  as.filterMap fun a => match a with
    | .serve e => some e
    | .draw _ _ => none

@[simp] lemma served_append (as as' : List Action) :
    served (as ++ as') = served as ++ served as' := List.filterMap_append

@[simp] lemma served_serve (e : Event) (as : List Action) :
    served (.serve e :: as) = e :: served as := rfl

lemma Timeline.config_steps (t : Timeline) (as : List Action) :
    (t.steps as).config = t.config.steps (served as) := by
  induction as generalizing t with
  | nil => rfl
  | cons a as ih =>
      have hstep : t.steps (a :: as) = (t.step a).steps as := rfl
      rw [hstep, ih]
      cases a with
      | draw ts use => rfl
      | serve e => rfl

/-- A condition on the requests of a timeline is one on the run of its configuration. -/
lemma Timeline.guarded_served {ok : Timeline → Action → Prop} {okc : Config → Event → Prop}
    (himp : ∀ t e, ok t (.serve e) → okc t.config e) {t : Timeline} {as : List Action}
    (h : Guarded Timeline.step ok t as) : Guarded Config.step okc t.config (served as) := by
  induction as generalizing t with
  | nil => trivial
  | cons a as ih =>
      cases a with
      | draw ts use => exact @ih (t.step (.draw ts use)) h.2
      | serve e => exact ⟨himp t e h.1, @ih (t.step (.serve e)) h.2⟩

end AcidKv
