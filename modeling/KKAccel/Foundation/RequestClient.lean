import KKAccel.Foundation.AtomicRules

/-!
# Clients of a server

A client makes requests one at a time: it goes on at once after a write, and only with the response
after a read. A server may carry out the requests later than it accepts them. As long as it does so
in order, the client cannot tell: its runs are those with a server that carries out each request
when it is made, but for the requests which are still outstanding.
-/

namespace AtomicRules

variable {κ ρ ω σ ι : Type*}

/-- A program, by the requests it makes. -/
structure Client (κ ρ ω : Type*) where
  /-- The request at a point of the program, if it is not at its end. -/
  asks : κ → Option ρ
  /-- The next point, from the response if there is one. -/
  resume : κ → Option ω → κ

/-- The part of a server's steps which its clients see. -/
structure Service (ι ρ ω : Type*) where
  /-- The request which the step carries out. -/
  request : ι → Option ρ
  /-- The response which the step gives. -/
  response : ι → Option ω
  /-- Requests which have a response. -/
  isRead : ρ → Bool

/-- A client and whether it waits for the response of a read. -/
structure ClientState (κ : Type*) where
  point : κ
  awaiting : Bool
  deriving DecidableEq

namespace Client

variable (client : Client κ ρ ω) (service : Service ι ρ ω)

/-- The client once a request of its has been accepted. -/
def issue (state : ClientState κ) (request : ρ) : ClientState κ :=
  if service.isRead request then
    { state with awaiting := true }
  else
    { state with point := client.resume state.point none }

/-- The client once a response has arrived. -/
def receive (state : ClientState κ) (response : ω) : ClientState κ :=
  if state.awaiting then
    { point := client.resume state.point (some response), awaiting := false }
  else
    state

/-- The client together with a server which carries out each request when it is made. -/
inductive Joint (step : σ → ι → σ → Prop) : κ × σ → ι → κ × σ → Prop
  | silent {point : κ} {before after : σ} {label : ι} :
      step before label after →
      service.request label = none →
      Joint step (point, before) label (point, after)
  | request {point : κ} {before after : σ} {label : ι} {request : ρ} :
      step before label after →
      client.asks point = some request →
      service.request label = some request →
      Joint step (point, before) label
        (client.resume point (service.response label), after)

/-- The requests made since a point, none of which has been carried out. -/
inductive Outstanding : κ → List ρ → ClientState κ → Prop
  | none (point : κ) : Outstanding point [] ⟨point, false⟩
  | read {point : κ} {request : ρ} :
      client.asks point = some request →
      service.isRead request = true →
      Outstanding point [request] ⟨point, true⟩
  | write {point : κ} {request : ρ} {later : List ρ} {state : ClientState κ} :
      client.asks point = some request →
      service.isRead request = false →
      Outstanding (client.resume point Option.none) later state →
      Outstanding point (request :: later) state

variable {client service}

namespace Outstanding

variable {point : κ} {state : ClientState κ} {request : ρ} {pending : List ρ}

theorem issue (outstanding : Outstanding client service point pending state)
    (free : state.awaiting = false) (asked : client.asks state.point = some request) :
    Outstanding client service point (pending ++ [request])
      (client.issue service state request) := by
  induction outstanding with
  | none point =>
      cases read : service.isRead request with
      | true =>
          rw [Client.issue, if_pos read]
          exact .read asked read
      | false =>
          rw [Client.issue, if_neg (by simp [read])]
          exact .write asked read (.none _)
  | read => contradiction
  | write asked' read _ induction => exact .write asked' read (induction free asked)

/-- The outstanding requests are writes, but for the one for whose response the client waits. -/
theorem eq_writes (outstanding : Outstanding client service point pending state) :
    ∃ writes, (∀ request ∈ writes, service.isRead request = false) ∧
      ((state.awaiting = false ∧ pending = writes) ∨
        (state.awaiting = true ∧ ∃ request, client.asks state.point = some request ∧
          service.isRead request = true ∧ pending = writes ++ [request])) := by
  induction outstanding with
  | none point => exact ⟨[], by simp, .inl ⟨rfl, rfl⟩⟩
  | read asked read => exact ⟨[], by simp, .inr ⟨rfl, _, asked, read, rfl⟩⟩
  | write asked read _ induction =>
      obtain ⟨writes, unread, shape⟩ := induction
      refine ⟨_ :: writes, List.forall_mem_cons.mpr ⟨read, unread⟩, ?_⟩
      rcases shape with ⟨free, rfl⟩ | ⟨waits, request, asks, isRead, rfl⟩
      · exact .inl ⟨free, rfl⟩
      · exact .inr ⟨waits, request, asks, isRead, rfl⟩

theorem settled (outstanding : Outstanding client service point pending state)
    (ended : client.asks state.point = Option.none)
    (unwritten : ∀ point request, client.asks point = some request →
      service.isRead request = false → client.resume point Option.none ≠ state.point) :
    pending = [] ∧ state = ⟨point, false⟩ := by
  induction outstanding with
  | none => exact ⟨rfl, rfl⟩
  | read asked =>
      rw [ended] at asked
      contradiction
  | write asked read _ induction =>
      obtain ⟨-, rfl⟩ := induction ended unwritten
      exact absurd rfl (unwritten _ _ asked read)

variable {step : σ → ι → σ → Prop} {before after : σ} {label : ι} {labels : List ι}

/-- When the oldest request is carried out, the client does so as well. -/
theorem serve
    (answers : (service.response label).isSome = (service.request label).any service.isRead)
    (outstanding : Outstanding client service point (request :: pending) state)
    (served : step before label after) (carried : service.request label = some request) :
    ∃ next, Joint client service step (point, before) label (next, after) ∧
      Outstanding client service next pending
        ((service.response label).toList.foldl client.receive state) := by
  rw [carried, Option.any_some] at answers
  cases outstanding with
  | read asked read =>
      obtain ⟨response, given⟩ := Option.isSome_iff_exists.mp (answers.trans read)
      refine ⟨_, .request served asked carried, ?_⟩
      rw [given]
      exact .none _
  | write asked read later =>
      have silent : service.response label = Option.none := by
        rw [← Option.not_isSome_iff_eq_none, answers, read]
        exact Bool.false_ne_true
      refine ⟨_, .request served asked carried, ?_⟩
      rw [silent]
      exact later

/-- When the server carries out some of the requests in their order, so does the client. -/
theorem serve_all
    (answers : ∀ {before after : σ} {label : ι}, step before label after →
      (service.response label).isSome = (service.request label).any service.isRead)
    (executed : Execution step before labels after)
    (outstanding : Outstanding client service point (labels.filterMap service.request ++ pending)
      state) :
    ∃ next, Execution (Joint client service step) (point, before) labels (next, after) ∧
      Outstanding client service next pending
        ((labels.filterMap service.response).foldl client.receive state) := by
  induction executed generalizing point state with
  | nil memory => exact ⟨point, .nil _, outstanding⟩
  | @cons before middle after label labels served _ induction =>
      cases carried : service.request label with
      | none =>
          have silent : service.response label = Option.none := by
            have answered := answers served
            rw [carried, Option.any_none] at answered
            rwa [← Option.not_isSome_iff_eq_none, Bool.not_eq_true]
          rw [List.filterMap_cons_none carried] at outstanding
          obtain ⟨next, run, rest⟩ := induction outstanding
          rw [List.filterMap_cons_none silent]
          exact ⟨next, .cons (.silent served carried) run, rest⟩
      | some request =>
          rw [List.filterMap_cons_some carried, List.cons_append] at outstanding
          obtain ⟨middle', first, outstanding'⟩ :=
            outstanding.serve (answers served) served carried
          obtain ⟨next, run, rest⟩ := induction outstanding'
          refine ⟨next, .cons first run, ?_⟩
          cases given : service.response label with
          | none =>
              rw [List.filterMap_cons_none given]
              rwa [given] at rest
          | some response =>
              rw [List.filterMap_cons_some given]
              rwa [given] at rest

end Outstanding

end Client

end AtomicRules
