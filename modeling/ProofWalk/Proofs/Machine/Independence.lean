import ProofWalk.Proofs.Machine.Derivations
import ProofWalk.Proofs.Machine.Histories

/-!
# Machines forget their histories

Requests leave a machine with a state, with features that are reported and with drafts of features, and a
request that fails leaves them in the middle of whatever it was at. None of this reaches a later expansion.
Requests change the code of a machine only by the query that they install, and how a state is expanded and
which key it has are matters of the code. So they are the same after all histories that last started the same
query.

## Main definitions

* `Machine.after` — what a machine becomes by requests
* `Machine.lastQuery?` — the last query that is started

## Main results

* `Machine.code_after` — the code after any requests
* `Machine.expansion_forgets_history` — steps and keys of a state after two histories
-/

namespace ProofWalk

namespace Machine

/-- The query that a request starts. -/
def Request.query? : Request → Option Query
  | .startQuery q => some q
  | .save | .restore _ | .executeFrom _ | .execute | .resolve _ | .outlinks _ => none

/-- The last query that requests start. -/
def lastQuery? (requests : List Request) : Option Query := (requests.filterMap Request.query?).getLast?

/-- What a machine becomes by requests, failures included. -/
def after (m : Machine) (requests : List Request) : Machine :=
  requests.foldl (fun m r => (m.answer r).2) m

@[simp] theorem after_nil (m : Machine) : m.after [] = m := rfl

@[simp] theorem after_concat (m : Machine) (requests : List Request) (r : Request) :
    m.after (requests ++ [r]) = ((m.after requests).answer r).2 := by
  rw [after, List.foldl_append]
  rfl

theorem lastQuery?_concat (requests : List Request) (r : Request) :
    lastQuery? (requests ++ [r]) = r.query?.or (lastQuery? requests) := by
  rw [lastQuery?, List.filterMap_append, List.filterMap_cons, List.filterMap_nil]
  cases r.query? with
  | none => rw [List.append_nil]; rfl
  | some q => rw [List.getLast?_concat]; rfl

/-- A query takes the place of whichever query was installed before. -/
theorem installed_eq_of_installs {m₀ m : Machine} (installs : m₀.Installs m.code) (q : Query) :
    m.installed q = m₀.installed q := by
  obtain ⟨query, registers, same⟩ := installs
  rw [installed, same]
  rfl

theorem installs_after (m : Machine) (requests : List Request) : m.Installs (m.after requests).code := by
  induction requests using List.reverseRecOn with
  | nil => exact m.installs_self
  | append_singleton requests r ih =>
    rw [after_concat]
    exact installs_answer ih r

/-- A request installs the query that it starts, whether or not the query runs to its first call. -/
theorem code_answer (m : Machine) (r : Request) :
    (m.answer r).2.code = r.query?.elim m.code m.installed := by
  cases r <;> rfl

/-- After any requests the code of a machine is its code at first with the last query installed. -/
theorem code_after (m : Machine) (requests : List Request) :
    (m.after requests).code = (lastQuery? requests).elim m.code m.installed := by
  -- by induction from the end: only the last request can put its query in place of the others
  induction requests using List.reverseRecOn with
  | nil => rfl
  | append_singleton requests r ih =>
    rw [after_concat, code_answer, lastQuery?_concat]
    cases r.query? with
    | none => exact ih
    | some q => exact installed_eq_of_installs (m.installs_after requests) q

/-- How a state is expanded, into which states or with which error, and which key it has, is the same after
all requests that last start the same query: whatever else is asked, of whatever states, and whichever of the
requests fail. -/
theorem expansion_forgets_history (m : Machine) {requests requests' : List Request}
    (query : lastQuery? requests = lastQuery? requests') (s : State) :
    ((m.after requests).outlinks s).1 = ((m.after requests').outlinks s).1 ∧
      (m.after requests).code.key s = (m.after requests').code.key s := by
  have code : (m.after requests).code = (m.after requests').code := by
    rw [code_after, code_after, query]
  exact ⟨outlinks_live code s, by rw [code]⟩

/-- The clause `p(X) {f(X)}` and the fact `q(a) {g}`. -/
def halting : Program where
  code := #[.allocate 1, .takeArgument (-1) (-1), .clearFeatures, .beginFeature "f" 1, .featureBound (-1),
    .reportFeature, .ret, .unifyConstant "a" (-1), .clearFeatures, .beginFeature "g" 0, .reportFeature, .ret]
  entries := [("p/1", 0), ("q/1", 7)]

/-- Who is in `q`. -/
def openQuestion : Query := ⟨⟨"q", [.var ⟨"Y", 0⟩]⟩, []⟩

/-- A request that stops in the middle of a feature leaves its draft behind, and the state that was saved before
is expanded as if nothing had happened. -/
theorem expansion_forgets_history_halting :
    let m := Machine.new halting []
    let started := m.after [.startQuery openQuestion]
    let stopped := m.after [.startQuery openQuestion, .executeFrom 0]
    started.live.drafts.length = 0 ∧ (started.answer (.executeFrom 0)).1.isOk = false ∧
      stopped.live.drafts.length = 1 ∧
      (stopped.outlinks started.live.state).1 = (started.outlinks started.live.state).1 ∧
      stopped.code.key started.live.state = started.code.key started.live.state ∧
      (started.outlinks started.live.state).1.toOption.map (·.map (·.features)) = some [[("g", 1)]] := by
  intro m started stopped
  obtain ⟨links, keys⟩ := @expansion_forgets_history m
    [.startQuery openQuestion, .executeFrom 0] [.startQuery openQuestion] rfl started.live.state
  exact ⟨by decide +kernel, by decide +kernel, by decide +kernel, links, keys, by decide +kernel⟩

end Machine

end ProofWalk
