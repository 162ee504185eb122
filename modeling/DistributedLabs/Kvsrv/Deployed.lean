import DistributedLabs.Kvsrv.Tested
import DistributedLabs.Labrpc.Within
import DistributedLabs.Library.Refinement

/-!
# The clerks on the simulated network

The clerks of `kvsrv/client.go` make their calls through the network of `labrpc/labrpc.go`, and the
handlers of `kvsrv/server.go` run as the handlers of the network's requests. A retry is a new
request; a request whose `Call` has returned may still be on its way.

`Fits` ties each clerk to the request of its current call. The system refines the model in which a
call is three steps (`deployed_refines`): a clerk that waits is seen as handled once the handler of
its request has returned. Here it matters that no handler runs after its call has returned, and so
the run has to be steady. With it every history of the whole system is linearizable
(`deployed_linearizable`).
-/

namespace DistributedLabs.Kvsrv

/-- The network, the server behind it, and the clerks. `args` has the clerk and the arguments of
every request of the network, and `current` the request of a clerk's last call. -/
structure Deployed (C E N : Type) where
  net : Labrpc.System E N Unit GoString
  args : List (C × Phase)
  kv : KVServer
  clerks : C → ClerkPc
  current : C → Nat

/-- The steps of the whole system. `handle` is the run of a handler, from which it returns. -/
inductive DeployedAction (C E N : Type) where
  | get (clerk : C) (key : GoString)
  | putAppend (clerk : C) (operation : Operation)
  | call (clerk : C)
  | network (call : Labrpc.NetworkCall E N Unit)
  | request (index : Nat) (action : Labrpc.RequestAction GoString)
  | handle (index : Nat)
  | callReturns (clerk : C)
  | finish (clerk : C)

section Steps

variable {C E N : Type} [DecidableEq C] [DecidableEq E] [DecidableEq N]

/-- Move one clerk. -/
def Deployed.setClerk (deployed : Deployed C E N) (clerk : C) (pc : ClerkPc) : Deployed C E N :=
  { deployed with clerks := Function.update deployed.clerks clerk pc }

/-- One step of the whole system; the clerk calls on the end `endOf clerk`. -/
def deployedStep (wire : Labrpc.Wire GoString) (endOf : C → E) (deployed : Deployed C E N) :
    DeployedAction C E N → Option (Deployed C E N)
  | .get clerk key =>
      match deployed.clerks clerk with
      | .idle => some (deployed.setClerk clerk (.calling (.get key) .ready))
      | _ => none
  | .putAppend clerk operation =>
      match deployed.clerks clerk with
      | .idle => some (deployed.setClerk clerk (.calling (.modify operation) .ready))
      | _ => none
  | .call clerk =>
      match deployed.clerks clerk with
      | .calling phase .ready =>
          (Labrpc.step wire deployed.net (.call (endOf clerk))).map fun net =>
            { deployed with
              net := net
              args := deployed.args ++ [(clerk, phase)]
              clerks := Function.update deployed.clerks clerk (.calling phase .waiting)
              current := Function.update deployed.current clerk deployed.net.requests.length }
      | _ => none
  | .network call =>
      (Labrpc.step wire deployed.net (.network call)).map fun net => { deployed with net := net }
  -- what a handler returns is up to the server
  | .request _ (.handlerReturn _) => none
  | .request index action =>
      (Labrpc.step wire deployed.net (.request index action)).map fun net =>
        { deployed with net := net }
  | .handle index =>
      deployed.args[index]?.bind fun request =>
        let result := request.2.execute deployed.kv
        (Labrpc.step wire deployed.net (.request index (.handlerReturn result.2))).map fun net =>
          { deployed with net := net, kv := result.1 }
  | .callReturns clerk =>
      match deployed.clerks clerk, deployed.net.requests[deployed.current clerk]? with
      | .calling phase .waiting, some req =>
          match req.call with
          | .returned (some value) => some (deployed.setClerk clerk (phase.next value))
          | .returned none => some (deployed.setClerk clerk (.calling phase .ready))
          | _ => none
      | _, _ => none
  | .finish clerk =>
      match deployed.clerks clerk with
      | .done _ => some (deployed.setClerk clerk .idle)
      | _ => none

/-- The whole system at the start: a new network, on which nothing is registered, and an empty
server. -/
def deployment (wire : Labrpc.Wire GoString) (endOf : C → E) :
    Machine (Deployed C E N) (DeployedAction C E N) where
  init :=
    { net := (Labrpc.labrpc E N Unit wire).init
      args := []
      kv := startKVServer
      clerks := fun _ => .idle
      current := fun _ => 0 }
  step := deployedStep wire endOf

/-- Change one request of the network, and the server. -/
def Deployed.setRequest (deployed : Deployed C E N) (index : Nat)
    (later : Labrpc.Request E N Unit GoString) (kv : KVServer) : Deployed C E N :=
  { deployed with
    net := { deployed.net with requests := deployed.net.requests.set index later }
    kv := kv }

/-- The steps of the whole system with their conditions. -/
inductive DeployedTransition (wire : Labrpc.Wire GoString) (endOf : C → E)
    (deployed : Deployed C E N) : DeployedAction C E N → Deployed C E N → Prop where
  | get (clerk : C) (key : GoString) (hidle : deployed.clerks clerk = .idle) :
      DeployedTransition wire endOf deployed (.get clerk key)
        (deployed.setClerk clerk (.calling (.get key) .ready))
  | putAppend (clerk : C) (operation : Operation) (hidle : deployed.clerks clerk = .idle) :
      DeployedTransition wire endOf deployed (.putAppend clerk operation)
        (deployed.setClerk clerk (.calling (.modify operation) .ready))
  | call (clerk : C) (phase : Phase) (hready : deployed.clerks clerk = .calling phase .ready) :
      DeployedTransition wire endOf deployed (.call clerk)
        { deployed with
          net := { deployed.net with
            requests := deployed.net.requests ++ [Labrpc.newRequest (endOf clerk)] }
          args := deployed.args ++ [(clerk, phase)]
          clerks := Function.update deployed.clerks clerk (.calling phase .waiting)
          current := Function.update deployed.current clerk deployed.net.requests.length }
  | network (call : Labrpc.NetworkCall E N Unit) (rn : Labrpc.Network E N Unit)
      (hperform : deployed.net.rn.perform call = some rn) :
      DeployedTransition wire endOf deployed (.network call)
        { deployed with net := { deployed.net with rn := rn } }
  | request (index : Nat) (action : Labrpc.RequestAction GoString)
      (req later : Labrpc.Request E N Unit GoString)
      (fresh : List (Labrpc.RequestEvent N Unit GoString))
      (hother : ∀ value, action ≠ .handlerReturn value)
      (hreq : deployed.net.requests[index]? = some req)
      (hlater : req.step wire deployed.net.rn action = some (later, fresh)) :
      DeployedTransition wire endOf deployed (.request index action)
        (deployed.setRequest index later deployed.kv)
  | handle (index : Nat) (clerk : C) (phase : Phase) (target : Labrpc.Target N Unit)
      (req : Labrpc.Request E N Unit GoString) (hargs : deployed.args[index]? = some (clerk, phase))
      (hreq : deployed.net.requests[index]? = some req) (hrunning : req.handler = .running target) :
      DeployedTransition wire endOf deployed (.handle index)
        (deployed.setRequest index
          { req with handler := .returned target (phase.execute deployed.kv).2 }
          (phase.execute deployed.kv).1)
  | callTrue (clerk : C) (phase : Phase) (req : Labrpc.Request E N Unit GoString)
      (value : GoString) (hwaiting : deployed.clerks clerk = .calling phase .waiting)
      (hreq : deployed.net.requests[deployed.current clerk]? = some req)
      (hcall : req.call = .returned (some value)) :
      DeployedTransition wire endOf deployed (.callReturns clerk)
        (deployed.setClerk clerk (phase.next value))
  | callFalse (clerk : C) (phase : Phase) (req : Labrpc.Request E N Unit GoString)
      (hwaiting : deployed.clerks clerk = .calling phase .waiting)
      (hreq : deployed.net.requests[deployed.current clerk]? = some req)
      (hcall : req.call = .returned none) :
      DeployedTransition wire endOf deployed (.callReturns clerk)
        (deployed.setClerk clerk (.calling phase .ready))
  | finish (clerk : C) (output : Option GoString) (hdone : deployed.clerks clerk = .done output) :
      DeployedTransition wire endOf deployed (.finish clerk) (deployed.setClerk clerk .idle)

/-- Every step of the whole system is a transition. -/
theorem deployed_step_inversion {wire : Labrpc.Wire GoString} {endOf : C → E}
    {deployed next : Deployed C E N} {action : DeployedAction C E N}
    (h : deployedStep wire endOf deployed action = some next) :
    DeployedTransition wire endOf deployed action next := by
  cases action with
  | get clerk key =>
      simp only [deployedStep] at h
      split at h
      · cases h
        exact .get clerk key ‹_›
      · cases h
  | putAppend clerk operation =>
      simp only [deployedStep] at h
      split at h
      · cases h
        exact .putAppend clerk operation ‹_›
      · cases h
  | call clerk =>
      simp only [deployedStep] at h
      split at h
      · cases h
        exact .call clerk _ ‹_›
      · cases h
  | network call =>
      obtain ⟨net, hnet, rfl⟩ := Option.map_eq_some_iff.mp h
      obtain ⟨rn, hperform, rfl⟩ := Option.map_eq_some_iff.mp hnet
      exact .network call rn hperform
  | request index action =>
      have hother : ∀ value, action ≠ .handlerReturn value := by
        rintro value rfl
        cases h
      have hmap : (Labrpc.step wire deployed.net (.request index action)).map
          (fun net => { deployed with net := net }) = some next := by
        cases action with
        | handlerReturn value => exact absurd rfl (hother value)
        | _ => exact h
      obtain ⟨net, hnet, rfl⟩ := Option.map_eq_some_iff.mp hmap
      obtain ⟨req, later, fresh, hreq, hlater, rfl, -⟩ := Labrpc.step_request hnet
      exact .request index action req later fresh hother hreq hlater
  | handle index =>
      obtain ⟨⟨clerk, phase⟩, hargs, hmap⟩ := Option.bind_eq_some_iff.mp h
      obtain ⟨net, hnet, rfl⟩ := Option.map_eq_some_iff.mp hmap
      obtain ⟨req, later, fresh, hreq, hlater, rfl, -⟩ := Labrpc.step_request hnet
      simp only [Labrpc.Request.step] at hlater
      split at hlater
      next target hrunning =>
        cases hlater
        exact .handle index clerk phase target req hargs hreq hrunning
      next => cases hlater
  | callReturns clerk =>
      simp only [deployedStep] at h
      split at h
      next phase req hwaiting hreq =>
        split at h
        next value hcall =>
          cases h
          exact .callTrue clerk phase req value hwaiting hreq hcall
        next hcall =>
          cases h
          exact .callFalse clerk phase req hwaiting hreq hcall
        next => cases h
      next => cases h
  | finish clerk =>
      simp only [deployedStep] at h
      split at h
      · cases h
        exact .finish clerk _ ‹_›
      · cases h

/-- The calls and returns of operations that a step shows. -/
def deployedEvents (deployed : Deployed C E N) :
    DeployedAction C E N → List (Event C Command (Option GoString))
  | .get clerk key => [.invoke clerk (.get key)]
  | .putAppend clerk operation => [.invoke clerk operation.command]
  | .finish clerk =>
      match deployed.clerks clerk with
      | .done output => [.respond clerk output]
      | _ => []
  | _ => []

/-- The identifiers drawn by `nrand` in a run. -/
def deployedIds {C E N : Type} (actions : List (DeployedAction C E N)) : List Int64 :=
  actions.filterMap fun
    | .putAppend _ operation => some operation.id
    | _ => none

/-- The step takes away no end and no server that is in use. -/
def DeployedSteady (deployed : Deployed C E N) : DeployedAction C E N → Prop
  | .network call => Labrpc.KeepsServing deployed.net call
  | _ => True

instance (deployed : Deployed C E N) :
    (action : DeployedAction C E N) → Decidable (DeployedSteady deployed action)
  | .network call => inferInstanceAs (Decidable (Labrpc.KeepsServing deployed.net call))
  | .get _ _ => isTrue trivial
  | .putAppend _ _ => isTrue trivial
  | .call _ => isTrue trivial
  | .request _ _ => isTrue trivial
  | .handle _ => isTrue trivial
  | .callReturns _ => isTrue trivial
  | .finish _ => isTrue trivial

end Steps

/-! ## The network -/

section Network

variable {C E N : Type} [DecidableEq C] [DecidableEq E] [DecidableEq N]
  {wire : Labrpc.Wire GoString} {endOf : C → E} {deployed next : Deployed C E N}
  {actions : List (DeployedAction C E N)}

/-- What a step is for the network. -/
def networkSteps (endOf : C → E) (deployed : Deployed C E N) :
    DeployedAction C E N → List (Labrpc.Action E N Unit GoString)
  | .call clerk => [.call (endOf clerk)]
  | .network call => [.network call]
  | .request index action => [.request index action]
  | .handle index =>
      (deployed.args[index]?.map fun request =>
        .request index (.handlerReturn (request.2.execute deployed.kv).2)).toList
  | _ => []

/-- The network runs as it does alone. -/
theorem network_refines :
    (deployment wire endOf).Refines (Labrpc.labrpc E N Unit wire) DeployedSteady Deployed.net
      (networkSteps endOf) where
  init := rfl
  step := by
    intro actions deployed action next _ _ _ hstep
    cases deployed_step_inversion hstep with
    | network call rn hperform =>
        simp [networkSteps, Machine.runFrom, Labrpc.labrpc, Labrpc.step, hperform]
    | request index action req later fresh hother hreq hlater =>
        simp [networkSteps, Machine.runFrom, Labrpc.labrpc, Labrpc.step, hreq, hlater,
          Deployed.setRequest]
    | handle index clerk phase target req hargs hreq hrunning =>
        simp [networkSteps, hargs, Machine.runFrom, Labrpc.labrpc, Labrpc.step, hreq,
          Labrpc.Request.step, hrunning, Deployed.setRequest]
    | call clerk phase hready => rfl
    | _ => rfl

/-- A steady run is one for the network. -/
theorem network_steady (hsteady : (deployment wire endOf).Meets DeployedSteady actions)
    (hrun : (deployment wire endOf).run actions = some deployed) :
    (Labrpc.labrpc E N Unit wire).Meets Labrpc.Steady
      ((deployment wire endOf).observe (networkSteps endOf) actions) := by
  refine network_refines.meets ?_ hsteady hrun
  intro deployed action hguard before image after net heq hnet
  have hmem : image ∈ networkSteps endOf deployed action := by
    rw [heq]
    exact List.mem_append_right _ List.mem_cons_self
  cases action with
  | network call =>
      rcases before with _ | ⟨head, rest⟩
      · obtain ⟨rfl, -⟩ := List.cons.inj heq
        cases hnet
        exact hguard
      · simp [networkSteps] at heq
  | call clerk =>
      obtain rfl := List.mem_singleton.mp hmem
      trivial
  | request index action =>
      obtain rfl := List.mem_singleton.mp hmem
      trivial
  | handle index =>
      obtain ⟨request, -, rfl⟩ := Option.map_eq_some_iff.mp (Option.mem_toList.mp hmem)
      trivial
  | _ => cases hmem

/-- What the network's requests satisfy in every steady run of it. -/
theorem deployed_requests (hsteady : (deployment wire endOf).Meets DeployedSteady actions)
    (hrun : (deployment wire endOf).run actions = some deployed)
    {req : Labrpc.Request E N Unit GoString} (hreq : req ∈ deployed.net.requests) :
    Labrpc.Together wire req ∧ (req.handler.opened = true → req.call = .waiting) ∧
      ∀ value, req.call = .returned (some value) →
        ∃ target, req.handler = .finished target value := by
  have hnet := network_refines.run hsteady hrun
  have htogether := Labrpc.all_together hnet req hreq
  have hserved := Labrpc.all_served (network_steady hsteady hrun) hnet req hreq
  exact ⟨htogether, hserved.waiting_of_opened htogether,
    Labrpc.handler_of_returned hnet req hreq⟩

end Network

/-! ## The requests of the clerks -/

section Clerks

variable {C E N : Type}

/-- `Call` has returned. -/
def Returned (req : Labrpc.Request E N Unit GoString) : Prop :=
  ∃ result, req.call = .returned result

/-- Every request has its arguments, the request of a clerk that waits has those of the clerk, and
a request whose call has not returned is the one for which its clerk waits. -/
structure Fits (deployed : Deployed C E N) : Prop where
  length : deployed.args.length = deployed.net.requests.length
  waiting : ∀ clerk phase, deployed.clerks clerk = .calling phase .waiting →
    deployed.args[deployed.current clerk]? = some (clerk, phase)
  pending : ∀ index req clerk phase, deployed.net.requests[index]? = some req →
    deployed.args[index]? = some (clerk, phase) → ¬ Returned req →
      deployed.clerks clerk = .calling phase .waiting ∧ deployed.current clerk = index

variable {deployed next : Deployed C E N}

/-- The request that was changed. -/
theorem Deployed.set_request_self {index : Nat} {req later : Labrpc.Request E N Unit GoString}
    {kv : KVServer} (hreq : deployed.net.requests[index]? = some req) :
    (deployed.setRequest index later kv).net.requests[index]? = some later :=
  List.getElem?_set_self (List.getElem?_eq_some_iff.mp hreq).1

/-- The other requests. -/
theorem Deployed.set_request_of_ne {index other : Nat}
    {later : Labrpc.Request E N Unit GoString} {kv : KVServer} (hne : index ≠ other) :
    (deployed.setRequest index later kv).net.requests[other]? = deployed.net.requests[other]? :=
  List.getElem?_set_ne hne

/-- The network goes on under the clerks, and no call is taken back. -/
theorem Fits.set_request (h : Fits deployed) {index : Nat}
    {req later : Labrpc.Request E N Unit GoString} {kv : KVServer}
    (hreq : deployed.net.requests[index]? = some req) (hlater : Returned req → Returned later) :
    Fits (deployed.setRequest index later kv) where
  length := h.length.trans List.length_set.symm
  waiting := h.waiting
  pending := by
    intro other now clerk phase hnow hargs hpending
    by_cases hother : index = other
    · subst hother
      rw [Deployed.set_request_self hreq] at hnow
      obtain rfl := Option.some.inj hnow
      exact h.pending index req clerk phase hreq hargs fun hreturned => hpending (hlater hreturned)
    · rw [Deployed.set_request_of_ne hother] at hnow
      exact h.pending other now clerk phase hnow hargs hpending

variable [DecidableEq C]

/-- The moved clerk is where it was moved to. -/
@[simp] theorem Deployed.set_clerk_self (clerk : C) (pc : ClerkPc) :
    (deployed.setClerk clerk pc).clerks clerk = pc :=
  Function.update_self _ _ _

/-- The other clerks do not move. -/
theorem Deployed.set_clerk_of_ne {clerk other : C} {pc : ClerkPc} (hne : other ≠ clerk) :
    (deployed.setClerk clerk pc).clerks other = deployed.clerks other :=
  Function.update_of_ne hne _ _

/-- A clerk for which no call is pending moves outside of a call. -/
theorem Fits.set_clerk (h : Fits deployed) {clerk : C} {pc : ClerkPc}
    (hdone : ∀ phase req, deployed.clerks clerk = .calling phase .waiting →
      deployed.net.requests[deployed.current clerk]? = some req → Returned req)
    (hpc : ∀ phase call, pc = .calling phase call → call = .ready) :
    Fits (deployed.setClerk clerk pc) where
  length := h.length
  waiting := by
    intro other phase hother
    by_cases heq : other = clerk
    · subst heq
      rw [Deployed.set_clerk_self] at hother
      cases hpc phase _ hother
    · rw [Deployed.set_clerk_of_ne heq] at hother
      exact h.waiting other phase hother
  pending := by
    intro index req other phase hreq hargs hpending
    obtain ⟨hwaiting, hcurrent⟩ := h.pending index req other phase hreq hargs hpending
    have hne : other ≠ clerk := by
      rintro rfl
      refine hpending (hdone phase req hwaiting ?_)
      rw [hcurrent]
      exact hreq
    rw [Deployed.set_clerk_of_ne hne]
    exact ⟨hwaiting, hcurrent⟩

/-- A call adds the request for which its clerk waits. -/
theorem Fits.call (h : Fits deployed) {clerk : C} {phase : Phase} {endname : E}
    (hready : deployed.clerks clerk = .calling phase .ready) :
    Fits { deployed with
      net := { deployed.net with
        requests := deployed.net.requests ++ [Labrpc.newRequest endname] }
      args := deployed.args ++ [(clerk, phase)]
      clerks := Function.update deployed.clerks clerk (.calling phase .waiting)
      current := Function.update deployed.current clerk deployed.net.requests.length } where
  length := by simp [h.length]
  waiting := by
    intro other otherPhase hother
    by_cases heq : other = clerk
    · subst heq
      simp only [Function.update_self, ClerkPc.calling.injEq, and_true] at hother ⊢
      subst hother
      rw [← h.length]
      exact List.getElem?_concat_length
    · simp only [Function.update_of_ne heq] at hother ⊢
      have hargs := h.waiting other otherPhase hother
      rw [List.getElem?_append_left (List.getElem?_eq_some_iff.mp hargs).1]
      exact hargs
  pending := by
    intro index req other otherPhase hreq hargs hpending
    dsimp only at hreq hargs ⊢
    rcases Nat.lt_or_ge index deployed.net.requests.length with hlt | hge
    · rw [List.getElem?_append_left hlt] at hreq
      rw [List.getElem?_append_left (h.length ▸ hlt)] at hargs
      obtain ⟨hwaiting, hcurrent⟩ := h.pending index req other otherPhase hreq hargs hpending
      have hne : other ≠ clerk := by
        rintro rfl
        rw [hready] at hwaiting
        cases hwaiting
      rw [Function.update_of_ne hne, Function.update_of_ne hne]
      exact ⟨hwaiting, hcurrent⟩
    · have hlength := (List.getElem?_eq_some_iff.mp hreq).1
      rw [List.length_append, List.length_singleton] at hlength
      obtain rfl : index = deployed.net.requests.length := by omega
      rw [← h.length, List.getElem?_concat_length] at hargs
      obtain ⟨rfl, rfl⟩ := Prod.mk.inj (Option.some.inj hargs)
      rw [Function.update_self, Function.update_self]
      exact ⟨rfl, rfl⟩

variable [DecidableEq E] [DecidableEq N] {wire : Labrpc.Wire GoString} {endOf : C → E}
  {actions : List (DeployedAction C E N)}

/-- Every step keeps the requests with their clerks. -/
theorem Fits.step (h : Fits deployed) {action : DeployedAction C E N}
    (htogether : ∀ req ∈ deployed.net.requests, Labrpc.Together wire req)
    (hstep : deployedStep wire endOf deployed action = some next) : Fits next := by
  cases deployed_step_inversion hstep with
  | get clerk key hidle =>
      exact h.set_clerk (by simp [hidle]) (by simp)
  | putAppend clerk operation hidle =>
      exact h.set_clerk (by simp [hidle]) (by simp)
  | call clerk phase hready => exact h.call hready
  | network call rn hperform => exact ⟨h.length, h.waiting, h.pending⟩
  | request index action req later fresh hother hreq hlater =>
      refine h.set_request hreq ?_
      rintro ⟨result, hresult⟩
      exact ⟨result, (htogether req (List.mem_of_getElem? hreq)).returned_step hlater hresult⟩
  | handle index clerk phase target req hargs hreq hrunning =>
      exact h.set_request hreq fun hreturned => hreturned
  | callTrue clerk phase req value hwaiting hreq hcall =>
      refine h.set_clerk ?_ ?_
      · intro other now _ hnow
        obtain rfl := Option.some.inj (hreq.symm.trans hnow)
        exact ⟨some value, hcall⟩
      · intro next call hnext
        cases phase with
        | modify operation => exact (ClerkPc.calling.inj hnext).2.symm
        | _ => cases hnext
  | callFalse clerk phase req hwaiting hreq hcall =>
      refine h.set_clerk ?_ (by simp)
      intro other now _ hnow
      obtain rfl := Option.some.inj (hreq.symm.trans hnow)
      exact ⟨none, hcall⟩
  | finish clerk output hdone =>
      exact h.set_clerk (by simp [hdone]) (by simp)

/-- The requests fit the clerks in every steady run. -/
theorem fits_run (hsteady : (deployment wire endOf).Meets DeployedSteady actions)
    (hrun : (deployment wire endOf).run actions = some deployed) : Fits deployed := by
  refine Machine.run_induction_of_meets (motive := fun actions deployed =>
    (deployment wire endOf).Meets DeployedSteady actions → Fits deployed) ?_ ?_ hsteady hrun hsteady
  · intro _
    exact ⟨rfl, by simp [deployment], by simp [deployment]⟩
  · intro actions deployed action next hrun ih _ hstep hsteady
    have hbefore := hsteady.of_initial (List.prefix_append _ _)
    exact (ih hbefore).step (fun req hreq => (deployed_requests hbefore hrun hreq).1) hstep

end Clerks

/-! ## The refinement -/

section Refinement

variable {C E N : Type}

/-- How far the last call of a clerk has come for the server. -/
def Deployed.callPc (deployed : Deployed C E N) (clerk : C) : CallPc :=
  ((deployed.net.requests[deployed.current clerk]?).bind fun req =>
    req.handler.runs.head?).elim .waiting .handled

/-- What a clerk is doing, as `clerks` has it. -/
def Deployed.clerkPc (deployed : Deployed C E N) (clerk : C) : ClerkPc :=
  match deployed.clerks clerk with
  | .calling phase .waiting => .calling phase (deployed.callPc clerk)
  | pc => pc

/-- The state that `clerks` has. -/
def Deployed.system (deployed : Deployed C E N) : System C where
  kv := deployed.kv
  clerks := deployed.clerkPc

/-- The server is seen as it is. -/
@[simp] theorem Deployed.system_kv (deployed : Deployed C E N) :
    deployed.system.kv = deployed.kv := rfl

/-- What a step is for the clerks and the server. -/
def clerkSteps (deployed : Deployed C E N) : DeployedAction C E N → List (Action C)
  | .get clerk key => [.get clerk key]
  | .putAppend clerk operation => [.putAppend clerk operation]
  | .call clerk => [.call clerk]
  | .network _ => []
  | .request _ _ => []
  | .handle index => (deployed.args[index]?.map fun request => .handle request.1).toList
  | .callReturns clerk =>
      match (deployed.net.requests[deployed.current clerk]?).map Labrpc.Request.call with
      | some (.returned (some _)) => [.callTrue clerk]
      | some (.returned none) => [.callFalse clerk]
      | _ => []
  | .finish clerk => [.finish clerk]

variable {deployed next : Deployed C E N}

/-- The call of a request. -/
theorem Deployed.call_pc_eq {clerk : C} {req : Labrpc.Request E N Unit GoString}
    (hreq : deployed.net.requests[deployed.current clerk]? = some req) :
    deployed.callPc clerk = req.handler.runs.head?.elim .waiting .handled := by
  rw [Deployed.callPc, hreq, Option.bind_some]

/-- Another request does not matter to the call. -/
theorem Deployed.call_pc_set_request {clerk : C} {index : Nat}
    {later : Labrpc.Request E N Unit GoString} {kv : KVServer}
    (hne : index ≠ deployed.current clerk) :
    (deployed.setRequest index later kv).callPc clerk = deployed.callPc clerk := by
  have hsame : (deployed.setRequest index later kv).net.requests[deployed.current clerk]? = _ :=
    Deployed.set_request_of_ne hne
  rw [Deployed.callPc, Deployed.callPc, ← hsame]
  rfl

/-- A clerk outside of a call. -/
theorem Deployed.clerk_pc_of_ne {clerk : C} {pc : ClerkPc} (h : deployed.clerks clerk = pc)
    (hpc : ∀ phase, pc ≠ .calling phase .waiting) : deployed.clerkPc clerk = pc := by
  unfold Deployed.clerkPc
  split
  next phase hwaiting => exact absurd (h.symm.trans hwaiting) (hpc phase)
  next => exact h

/-- A clerk in a call. -/
theorem Deployed.clerk_pc_waiting {clerk : C} {phase : Phase}
    (h : deployed.clerks clerk = .calling phase .waiting) :
    deployed.clerkPc clerk = .calling phase (deployed.callPc clerk) := by
  rw [Deployed.clerkPc, h]

/-- A clerk is seen the same when neither it nor its call has changed. -/
theorem Deployed.clerk_pc_congr {clerk : C} (hclerk : next.clerks clerk = deployed.clerks clerk)
    (hcall : ∀ phase, deployed.clerks clerk = .calling phase .waiting →
      next.callPc clerk = deployed.callPc clerk) : next.clerkPc clerk = deployed.clerkPc clerk := by
  unfold Deployed.clerkPc
  rw [hclerk]
  split
  next phase hwaiting => rw [hcall phase hwaiting]
  next => rfl

/-- A step on a request that gives no reply is not seen. -/
theorem Deployed.system_set_request {index : Nat} {req later : Labrpc.Request E N Unit GoString}
    (hreq : deployed.net.requests[index]? = some req)
    (hruns : later.handler.runs = req.handler.runs) :
    (deployed.setRequest index later deployed.kv).system = deployed.system := by
  have hclerks : (deployed.setRequest index later deployed.kv).clerkPc = deployed.clerkPc := by
    funext clerk
    refine Deployed.clerk_pc_congr rfl fun phase _ => ?_
    by_cases hindex : index = deployed.current clerk
    · subst hindex
      rw [Deployed.call_pc_eq hreq, ← hruns]
      exact Deployed.call_pc_eq (Deployed.set_request_self hreq)
    · exact Deployed.call_pc_set_request hindex
  rw [Deployed.system, hclerks]
  rfl

variable [DecidableEq C]

/-- A step after which one clerk is seen to have moved. -/
theorem Deployed.system_eq_set_clerk {clerk : C} {pc : ClerkPc} (hself : next.clerkPc clerk = pc)
    (hothers : ∀ other, other ≠ clerk → next.clerkPc other = deployed.clerkPc other) :
    next.system = { deployed.system with kv := next.kv }.setClerk clerk pc := by
  have hclerks : next.clerkPc = Function.update deployed.clerkPc clerk pc := by
    funext other
    by_cases heq : other = clerk
    · subst heq
      rw [Function.update_self, hself]
    · rw [Function.update_of_ne heq, hothers other heq]
  rw [Deployed.system, hclerks]
  rfl

/-- A move of a clerk out of a call is seen as it is. -/
theorem Deployed.system_set_clerk (clerk : C) {pc : ClerkPc}
    (hpc : ∀ phase, pc ≠ .calling phase .waiting) :
    (deployed.setClerk clerk pc).system = deployed.system.setClerk clerk pc :=
  Deployed.system_eq_set_clerk
    (Deployed.clerk_pc_of_ne (Deployed.set_clerk_self clerk pc) hpc)
    fun _ hne => Deployed.clerk_pc_congr (Deployed.set_clerk_of_ne hne) fun _ _ => rfl

variable {clerk : C} {phase : Phase}

/-- A call is seen as a call. -/
theorem Deployed.system_call (h : Fits deployed) (endname : E) :
    ({ deployed with
      net := { deployed.net with
        requests := deployed.net.requests ++ [Labrpc.newRequest endname] }
      args := deployed.args ++ [(clerk, phase)]
      clerks := Function.update deployed.clerks clerk (.calling phase .waiting)
      current := Function.update deployed.current clerk deployed.net.requests.length } :
        Deployed C E N).system = deployed.system.setClerk clerk (.calling phase .waiting) := by
  refine Deployed.system_eq_set_clerk ?_ ?_
  · rw [Deployed.clerk_pc_waiting (Function.update_self _ _ _)]
    refine congrArg (ClerkPc.calling phase) ?_
    simp only [Deployed.callPc, Function.update_self, List.getElem?_concat_length]
    rfl
  · intro other hne
    refine Deployed.clerk_pc_congr (Function.update_of_ne hne _ _) fun otherPhase hwaiting => ?_
    -- the call of another clerk is an older request
    have hlt := (List.getElem?_eq_some_iff.mp (h.waiting other otherPhase hwaiting)).1
    rw [h.length] at hlt
    simp only [Deployed.callPc, Function.update_of_ne hne, List.getElem?_append_left hlt]

/-- The run of a handler is seen as one of the clerk that waits for it. -/
theorem Deployed.system_handle (h : Fits deployed) {index : Nat} {target : Labrpc.Target N Unit}
    {req : Labrpc.Request E N Unit GoString} (hargs : deployed.args[index]? = some (clerk, phase))
    (hreq : deployed.net.requests[index]? = some req)
    (hwaiting : deployed.clerks clerk = .calling phase .waiting)
    (hcurrent : deployed.current clerk = index) (kv : KVServer) (value : GoString) :
    (deployed.setRequest index { req with handler := .returned target value } kv).system =
      { deployed.system with kv := kv }.setClerk clerk (.calling phase (.handled value)) := by
  refine Deployed.system_eq_set_clerk ?_ ?_
  · subst hcurrent
    have hself : (deployed.setRequest (deployed.current clerk)
        { req with handler := .returned target value } kv).clerkPc clerk =
          .calling phase _ := Deployed.clerk_pc_waiting hwaiting
    rw [hself, Deployed.call_pc_eq (Deployed.set_request_self hreq)]
    rfl
  · intro other hne
    refine Deployed.clerk_pc_congr rfl fun otherPhase hother => Deployed.call_pc_set_request ?_
    rintro rfl
    -- a request has the arguments of one clerk
    have hsame := hargs.symm.trans (h.waiting other otherPhase hother)
    exact hne (Prod.mk.inj (Option.some.inj hsame)).1.symm

variable [DecidableEq E] [DecidableEq N] {wire : Labrpc.Wire GoString} {endOf : C → E}
  {actions : List (DeployedAction C E N)}

/-- The whole system refines the clerks, as long as it is steady. -/
theorem deployed_refines :
    (deployment wire endOf : Machine (Deployed C E N) _).Refines (clerks C) DeployedSteady
      Deployed.system clerkSteps where
  init := rfl
  step := by
    intro actions deployed action next hsteady hrun _ hstep
    have hfits := fits_run hsteady hrun
    cases deployed_step_inversion hstep with
    | get clerk key hidle =>
        have hpc : deployed.system.clerks clerk = .idle :=
          Deployed.clerk_pc_of_ne hidle (by simp)
        rw [Deployed.system_set_clerk clerk (by simp)]
        simp [clerkSteps, Machine.runFrom, clerks, step, hpc]
    | putAppend clerk operation hidle =>
        have hpc : deployed.system.clerks clerk = .idle :=
          Deployed.clerk_pc_of_ne hidle (by simp)
        rw [Deployed.system_set_clerk clerk (by simp)]
        simp [clerkSteps, Machine.runFrom, clerks, step, hpc]
    | call clerk phase hready =>
        have hpc : deployed.system.clerks clerk = .calling phase .ready :=
          Deployed.clerk_pc_of_ne hready (by simp)
        rw [Deployed.system_call hfits]
        simp [clerkSteps, Machine.runFrom, clerks, step, hpc]
    | network call rn hperform => rfl
    | request index action req later fresh hother hreq hlater =>
        have htogether := (deployed_requests hsteady hrun (List.mem_of_getElem? hreq)).1
        rw [Deployed.system_set_request hreq (htogether.runs_step hother hlater)]
        rfl
    | handle index clerk phase target req hargs hreq hrunning =>
        -- the handler runs within its call, so that its clerk is the one that waits
        obtain ⟨-, hwithin, -⟩ := deployed_requests hsteady hrun (List.mem_of_getElem? hreq)
        have hcall : req.call = .waiting := hwithin (by rw [hrunning]; rfl)
        obtain ⟨hwaiting, hcurrent⟩ := hfits.pending index req clerk phase hreq hargs
          (by rintro ⟨result, hresult⟩; rw [hcall] at hresult; cases hresult)
        have hpc : deployed.system.clerks clerk = .calling phase .waiting := by
          refine (Deployed.clerk_pc_waiting hwaiting).trans ?_
          rw [Deployed.call_pc_eq (hcurrent.symm ▸ hreq), hrunning]
          rfl
        rw [Deployed.system_handle hfits hargs hreq hwaiting hcurrent]
        simp [clerkSteps, hargs, Machine.runFrom, clerks, step, hpc]
    | callTrue clerk phase req value hwaiting hreq hcall =>
        obtain ⟨-, -, hreply⟩ := deployed_requests hsteady hrun (List.mem_of_getElem? hreq)
        obtain ⟨target, hfinished⟩ := hreply value hcall
        have hpc : deployed.system.clerks clerk = .calling phase (.handled value) := by
          refine (Deployed.clerk_pc_waiting hwaiting).trans ?_
          rw [Deployed.call_pc_eq hreq, hfinished]
          rfl
        rw [Deployed.system_set_clerk clerk (by cases phase <;> simp [Phase.next])]
        simp [clerkSteps, hreq, hcall, Machine.runFrom, clerks, step, hpc]
    | callFalse clerk phase req hwaiting hreq hcall =>
        have hpc : deployed.system.clerks clerk = .calling phase (deployed.callPc clerk) :=
          Deployed.clerk_pc_waiting hwaiting
        rw [Deployed.system_set_clerk clerk (by simp)]
        rw [Deployed.call_pc_eq hreq] at hpc
        rcases hruns : req.handler.runs.head? with _ | value
        · rw [hruns] at hpc
          simp [clerkSteps, hreq, hcall, Machine.runFrom, clerks, step, hpc]
        · rw [hruns] at hpc
          simp [clerkSteps, hreq, hcall, Machine.runFrom, clerks, step, hpc]
    | finish clerk output hdone =>
        have hpc : deployed.system.clerks clerk = .done output :=
          Deployed.clerk_pc_of_ne hdone (by simp)
        rw [Deployed.system_set_clerk clerk (by simp)]
        simp [clerkSteps, Machine.runFrom, clerks, step, hpc]

/-- The clients see the same. -/
theorem deployed_history (hsteady : (deployment wire endOf).Meets DeployedSteady actions)
    (hrun : (deployment wire endOf).run actions = some deployed) :
    clientHistory ((deployment wire endOf).observe clerkSteps actions) =
      record ((deployment wire endOf).observe deployedEvents actions) := by
  rw [clientHistory]
  refine congrArg record (deployed_refines.observe ?_ hsteady hrun)
  intro deployed action next hstep hmatched
  cases deployed_step_inversion hstep with
  | get clerk key hidle => exact Machine.observe_from_singleton hmatched
  | putAppend clerk operation hidle => exact Machine.observe_from_singleton hmatched
  | call clerk phase hready => exact Machine.observe_from_singleton hmatched
  | network call rn hperform => rfl
  | request index action req later fresh hother hreq hlater => rfl
  | handle index clerk phase target req hargs hreq hrunning =>
      simp only [clerkSteps, hargs, Option.map_some, Option.toList_some] at hmatched ⊢
      exact Machine.observe_from_singleton hmatched
  | callTrue clerk phase req value hwaiting hreq hcall =>
      simp only [clerkSteps, hreq, Option.map_some, hcall] at hmatched ⊢
      exact Machine.observe_from_singleton hmatched
  | callFalse clerk phase req hwaiting hreq hcall =>
      simp only [clerkSteps, hreq, Option.map_some, hcall] at hmatched ⊢
      exact Machine.observe_from_singleton hmatched
  | finish clerk output hdone =>
      have hpc : deployed.system.clerks clerk = .done output :=
        Deployed.clerk_pc_of_ne hdone (by simp)
      refine (Machine.observe_from_singleton hmatched).trans ?_
      simp only [clientEvents, deployedEvents, hpc, hdone]

/-- The same identifiers are drawn. -/
theorem deployed_ids (hrun : (deployment wire endOf).run actions = some deployed) :
    drawnIds ((deployment wire endOf).observe clerkSteps actions) = deployedIds actions := by
  refine Machine.run_induction (motive := fun actions _ =>
    drawnIds ((deployment wire endOf).observe clerkSteps actions) = deployedIds actions) rfl ?_ hrun
  intro actions deployed action next hrun ih hstep
  rw [Machine.observe_concat hrun hstep, drawnIds, List.filterMap_append, deployedIds,
    List.filterMap_append]
  refine congrArg₂ (· ++ ·) ih ?_
  cases deployed_step_inversion hstep with
  | handle index clerk phase target req hargs hreq hrunning => simp [clerkSteps, hargs]
  | callTrue clerk phase req value hwaiting hreq hcall => simp [clerkSteps, hreq, hcall]
  | callFalse clerk phase req hwaiting hreq hcall => simp [clerkSteps, hreq, hcall]
  | _ => rfl

/-- Every history of the clerks on the simulated network is linearizable, whatever requests and
replies are lost, delayed or reordered, provided that no request identifier is drawn twice and no
end and no server is taken away while it is in use. -/
theorem deployed_linearizable {C E N : Type} [DecidableEq C] [DecidableEq E] [DecidableEq N]
    (wire : Labrpc.Wire GoString) (endOf : C → E) (actions : List (DeployedAction C E N))
    (deployed : Deployed C E N) (hrun : (deployment wire endOf).run actions = some deployed)
    (hsteady : (deployment wire endOf).Meets DeployedSteady actions)
    (hids : (deployedIds actions).Nodup) :
    Linearizable storeObject (record ((deployment wire endOf).observe deployedEvents actions)) := by
  have hclerks := deployed_refines.run hsteady hrun
  rw [← deployed_ids hrun] at hids
  obtain ⟨order, hlinearized⟩ := linearized_run hclerks hids
  rw [← deployed_history hsteady hrun]
  exact ⟨order, get deployed.system.kv, hlinearized.linear⟩

end Refinement

/-- The ends of two clerks. -/
def TwoClerks.endname : TwoClerks → Nat
  | .first => 0
  | .second => 1

/-- An unreliable network with the server and the ends of two clerks. -/
def unreliableNetwork : List (DeployedAction TwoClerks Nat Nat) :=
  [.network (.addServer 0 ()), .network (.reliable false),
    .network (.makeEnd 0), .network (.connect 0 0), .network (.enable 0 true),
    .network (.makeEnd 1), .network (.connect 1 0), .network (.enable 1 true)]

/-- A request is taken and its handler runs. -/
def served (index : Nat) : List (DeployedAction TwoClerks Nat Nat) :=
  [.request index .accept, .request index (.processReq false), .request index (.processReq false),
    .request index (.processReq false), .request index (.processReq false),
    .request index .dispatch, .handle index, .request index .takeReply,
    .request index (.processReq false)]

/-- The reply of a request is dropped. -/
def dropped (index : Nat) : List (DeployedAction TwoClerks Nat Nat) :=
  [.request index (.processReq true), .request index .receive]

/-- The reply of a request reaches the clerk. -/
def answered (index : Nat) : List (DeployedAction TwoClerks Nat Nat) :=
  [.request index (.processReq false), .request index (.processReq false), .request index .receive]

/-- Two clerks append to one key. The reply of the first append is dropped, the second append is
executed while the first is retried, and the end of the first clerk is deleted when it is done. -/
def droppedReply : List (DeployedAction TwoClerks Nat Nat) :=
  unreliableNetwork ++
    [.putAppend .first ⟨.append, ascii ['k'], ascii ['1'], 1⟩, .call .first] ++ served 0 ++
    dropped 0 ++ [.callReturns .first, .call .first,
      .putAppend .second ⟨.append, ascii ['k'], ascii ['2'], 2⟩, .call .second] ++ served 2 ++
    served 1 ++ answered 1 ++ [.callReturns .first, .call .first] ++ served 3 ++ answered 3 ++
    [.callReturns .first, .finish .first, .network (.deleteEnd 0)] ++ answered 2 ++
    [.callReturns .second, .call .second] ++ served 4 ++ answered 4 ++
    [.callReturns .second, .finish .second]

/-- The run with a dropped reply satisfies the conditions. The first append returns the value before
it although its second execution found its own effect and that of the other append. -/
theorem deployed_linearizable_dropped :
    ∃ deployed, (deployment Labrpc.plainWire TwoClerks.endname).run droppedReply = some deployed ∧
      (deployment Labrpc.plainWire TwoClerks.endname).Meets DeployedSteady droppedReply ∧
      (deployedIds droppedReply).Nodup ∧
      (deployment Labrpc.plainWire TwoClerks.endname).observe deployedEvents droppedReply =
        [.invoke .first (.append (ascii ['k']) (ascii ['1'])),
          .invoke .second (.append (ascii ['k']) (ascii ['2'])),
          .respond .first (some []), .respond .second (some (ascii ['1']))] ∧
      Linearizable storeObject (record
        ((deployment Labrpc.plainWire TwoClerks.endname).observe deployedEvents droppedReply)) := by
  obtain ⟨deployed, hrun⟩ := Option.isSome_iff_exists.mp (show
    ((deployment Labrpc.plainWire TwoClerks.endname).run droppedReply).isSome = true by decide)
  have hsteady : (deployment Labrpc.plainWire TwoClerks.endname).Meets DeployedSteady
    droppedReply := Machine.meets_of_check (by decide)
  have hids : (deployedIds droppedReply).Nodup := by decide
  exact ⟨deployed, hrun, hsteady, hids, by decide,
    deployed_linearizable Labrpc.plainWire TwoClerks.endname droppedReply deployed hrun hsteady
      hids⟩

end DistributedLabs.Kvsrv
