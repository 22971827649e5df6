import Blp.Service.Handlers

/-!
# Requests before authentication

* `no_access_before_auth`: a connection has a session exactly when an `auth` on it has been
  accepted; without one a request changes nothing, and its reply is the same for any two stores.
-/

namespace Blp.Service

open CString Blp.Core

/-- The node behind some requests. -/
def Node.after (node : Node) (requests : List (Query × Env)) : Node :=
  requests.foldl (fun node r => (node.handle r.1 r.2).2) node

/-- The replies on one connection. -/
def Node.repliesOn (conn : Nat) : Node → List (Query × Env) → List Reply
  | _, [] => []
  | node, r :: requests =>
      let result := node.handle r.1 r.2
      if r.1.conn = conn then result.1 :: result.2.repliesOn conn requests
      else result.2.repliesOn conn requests

/-- A connection has a session when it had one or an `auth` on it was accepted. -/
theorem sessions_after (node : Node) (requests : List (Query × Env)) (conn : Nat) :
    (node.after requests).sessions conn ≠ none ↔
      node.sessions conn ≠ none ∨ ∃ r ∈ requests, r.1.conn = conn ∧ r.1.Accepted := by
  induction requests generalizing node with
  | nil => simp [Node.after]
  | cons r requests ih =>
      have step : (node.handle r.1 r.2).2.sessions conn ≠ none ↔
          node.sessions conn ≠ none ∨ r.1.conn = conn ∧ r.1.Accepted := by
        rw [handle_sessions]
        by_cases accepted : r.1.Accepted
        · by_cases here : r.1.conn = conn
          · subst here
            simp [accepted]
          · simp [accepted, here, Function.update_of_ne (Ne.symm here)]
        · simp [accepted]
      have rest := ih (node.handle r.1 r.2).2
      rw [Node.after, List.foldl_cons, ← Node.after, rest, step, or_assoc]
      simp only [List.mem_cons, exists_eq_or_imp]

/-- Two nodes answer a connection alike until an `auth` on it is accepted, whatever their stores
hold and their clocks show. -/
theorem repliesOn_eq {conn : Nat} {requests requests' : List (Query × Env)} {node node' : Node}
    (model : node.model = node'.model) (sessions : node.sessions = node'.sessions)
    (without : node.sessions conn = none)
    (queries : requests.map Prod.fst = requests'.map Prod.fst)
    (never : ∀ r ∈ requests, r.1.conn = conn → ¬ r.1.Accepted) :
    node.repliesOn conn requests = node'.repliesOn conn requests' := by
  induction requests generalizing requests' node node' with
  | nil =>
      rw [List.map_nil, eq_comm, List.map_eq_nil_iff] at queries
      subst queries
      rfl
  | cons r requests ih =>
      cases requests' with
      | nil => cases queries
      | cons r' requests' =>
          obtain ⟨q, env⟩ := r
          obtain ⟨q', env'⟩ := r'
          obtain ⟨rfl, tails⟩ := List.cons_eq_cons.mp queries
          have rest : (node.handle q env).2.repliesOn conn requests =
              (node'.handle q env').2.repliesOn conn requests' := by
            refine ih ?_ ?_ ?_ tails fun r member => never r (List.mem_cons_of_mem _ member)
            · rw [handle_model, handle_model, model]
            · rw [handle_sessions, handle_sessions, sessions]
            · rw [handle_sessions]
              split
              · rename_i accepted
                rw [Function.update_of_ne, without]
                intro here
                exact never _ List.mem_cons_self here.symm accepted
              · exact without
          simp only [Node.repliesOn, rest]
          split
          · rename_i here
            subst here
            have without' := without
            rw [sessions] at without'
            rw [(handle_of_no_session without env).1, (handle_of_no_session without' env').1,
              model]
          · rfl

/-- **No access before authentication.** -/
theorem no_access_before_auth (model : String) :
    (∀ store requests conn,
      ((Node.start model store).after requests).sessions conn ≠ none ↔
        ∃ r ∈ requests, r.1.conn = conn ∧ r.1.Accepted) ∧
    (∀ store requests q env,
      ((Node.start model store).after requests).sessions q.conn = none →
        (((Node.start model store).after requests).handle q env).2.store =
          ((Node.start model store).after requests).store) ∧
    ∀ store store' requests requests' conn,
      requests.map Prod.fst = requests'.map Prod.fst →
        (∀ r ∈ requests, r.1.conn = conn → ¬ r.1.Accepted) →
          (Node.start model store).repliesOn conn requests =
            (Node.start model store').repliesOn conn requests' := by
  refine ⟨?_, ?_, ?_⟩
  · intro store requests conn
    rw [sessions_after, or_iff_right]
    exact fun some => some rfl
  · intro store requests q env none
    exact (handle_of_no_session none env).2
  · intro store store' requests requests' conn queries never
    exact repliesOn_eq rfl rfl rfl queries never

end Blp.Service
