import DistributedLabs.Kvsrv.Server
import DistributedLabs.Library.Unwinding

/-!
# Keys do not interfere

The calls for one key and the calls for another share the map of records, in which an ack deletes
and a retry looks up. A call reads and writes only the value of its key and the record of its
identifier, `handle_eq_effect`; so as long as no identifier is used with two keys, the value of a
key, the records of its calls and their replies are those of a server that gets no other calls,
`keys_independent`.
-/

namespace DistributedLabs.Kvsrv

/-- The value of a key and the record of an identifier after a request, and its reply. -/
structure Effect where
  stored : Option GoString
  record : Option GoString
  reply : GoString

/-- What a request makes of the value of its key and of the record of its identifier. -/
def Request.effect (request : Request) (stored record : Option GoString) : Effect :=
  match request.state, record with
  | .ack, _ => ⟨stored, none, []⟩
  | .modify, some reply => ⟨stored, some reply, reply⟩
  | .modify, none =>
      { stored := some (request.operation.op.stored (stored.getD []) request.operation.value)
        record := some (request.operation.op.recorded (stored.getD []) request.operation.value)
        reply := stored.getD [] }

/-- The effect of a request on a server. -/
def Request.effectOn (request : Request) (kv : KVServer) : Effect :=
  request.effect (kv.storeMap request.operation.key) (kv.idMap request.operation.id)

/-- A handler writes only the value of its key and the record of its identifier. -/
theorem handle_eq_effect (kv : KVServer) (request : Request) :
    handle request.operation.op kv request.args =
      ({ storeMap := Function.update kv.storeMap request.operation.key
          (request.effectOn kv).stored
         idMap := Function.update kv.idMap request.operation.id (request.effectOn kv).record },
        (request.effectOn kv).reply) := by
  cases hstate : request.state with
  | ack =>
      have heffect : request.effectOn kv = ⟨kv.storeMap request.operation.key, none, []⟩ := by
        simp only [Request.effectOn, Request.effect, hstate]
      rw [handle_ack _ _ hstate, heffect, Function.update_eq_self]
      rfl
  | modify =>
      cases hid : kv.idMap request.operation.id with
      | some record =>
          have heffect : request.effectOn kv =
              ⟨kv.storeMap request.operation.key, some record, record⟩ := by
            simp only [Request.effectOn, Request.effect, hstate, hid]
          rw [handle_retry _ hstate hid, heffect, Function.update_eq_self, ← hid,
            Function.update_eq_self]
      | none =>
          rw [handle_fresh _ hstate hid, get_eq]
          simp only [Request.effectOn, Request.effect, hstate, hid]
          rfl

/-! ## Calls -/

/-- The key of a call. -/
def Call.key : Call → GoString
  | .get key => key
  | .putAppend request => request.operation.key

/-- The calls in their order, with their replies. -/
def replies (calls : List Call) : List (Call × GoString) :=
  answers (fun kv call => call.execute kv) startKVServer calls

/-- The calls for one key. -/
def callsOn (key : GoString) (calls : List Call) : List Call :=
  calls.filter fun call => call.key = key

/-- The identifier of a call. -/
def Call.id : Call → Option Int64
  | .get _ => none
  | .putAppend request => some request.operation.id

/-- The identifier is used by a call for the key. -/
def UsedFor (calls : List Call) (key : GoString) (id : Int64) : Prop :=
  ∃ call ∈ calls, call.key = key ∧ call.id = some id

/-- No identifier is used with two keys. -/
def IdsBound (calls : List Call) : Prop :=
  ∀ first ∈ calls, ∀ second ∈ calls, first.id ≠ none → first.id = second.id →
    first.key = second.key

/-- Two servers have the same value for a key and the same records for its identifiers. -/
structure SameView (key : GoString) (owned : Int64 → Prop) (kv kv' : KVServer) : Prop where
  stored : kv.storeMap key = kv'.storeMap key
  records : ∀ id, owned id → kv.idMap id = kv'.idMap id

section View

variable {key : GoString} {owned : Int64 → Prop} {kv kv' : KVServer} {request : Request}

/-- A request for the key has the same effect on both servers. -/
theorem SameView.effect_eq (h : SameView key owned kv kv') (hkey : request.operation.key = key)
    (hid : owned request.operation.id) : request.effectOn kv = request.effectOn kv' := by
  rw [Request.effectOn, Request.effectOn, hkey, h.stored, h.records _ hid]

/-- A request for the key keeps the view when both servers get it. -/
theorem SameView.request_step (h : SameView key owned kv kv') (hkey : request.operation.key = key)
    (hid : owned request.operation.id) :
    SameView key owned (handle request.operation.op kv request.args).1
      (handle request.operation.op kv' request.args).1 := by
  have heffect := h.effect_eq hkey hid
  rw [handle_eq_effect, handle_eq_effect, heffect]
  constructor <;> dsimp only
  · rw [hkey, Function.update_self, Function.update_self]
  · intro id howned
    by_cases heq : id = request.operation.id
    · rw [heq, Function.update_self, Function.update_self]
    · rw [Function.update_of_ne heq, Function.update_of_ne heq]
      exact h.records id howned

/-- A request for another key keeps the view when only one server gets it. -/
theorem SameView.other_step (h : SameView key owned kv kv') (hkey : request.operation.key ≠ key)
    (hid : ¬ owned request.operation.id) :
    SameView key owned (handle request.operation.op kv request.args).1 kv' := by
  rw [handle_eq_effect]
  constructor <;> dsimp only
  · rw [Function.update_of_ne hkey.symm]
    exact h.stored
  · intro id howned
    have hne : id ≠ request.operation.id := fun heq => hid (heq ▸ howned)
    rw [Function.update_of_ne hne]
    exact h.records id howned

/-- The calls whose identifier is owned exactly when they are for the key. -/
def Call.Owned (key : GoString) (owned : Int64 → Prop) : Call → Prop
  | .get _ => True
  | .putAppend request => owned request.operation.id ↔ request.operation.key = key

/-- The calls for one key are answered by its value and its records alone. -/
theorem same_view_unwinding (key : GoString) (owned : Int64 → Prop) :
    Unwinding (fun kv call => Call.execute kv call) (Call.Owned key owned)
      (fun call => call.key = key) (SameView key owned) where
  answer := by
    intro kv kv' call h hallowed hkey
    cases call with
    | get other =>
        show get kv other = get kv' other
        rw [get_eq, get_eq, show other = key from hkey, h.stored]
    | putAppend request =>
        show (handle request.operation.op kv request.args).2 =
          (handle request.operation.op kv' request.args).2
        rw [handle_eq_effect, handle_eq_effect, h.effect_eq hkey (hallowed.mpr hkey)]
  visible_step := by
    intro kv kv' call h hallowed hkey
    cases call with
    | get other => exact h
    | putAppend request => exact h.request_step hkey (hallowed.mpr hkey)
  hidden_step := by
    intro kv kv' call h hallowed hkey
    cases call with
    | get other => exact h
    | putAppend request => exact h.other_step hkey fun howned => hkey (hallowed.mp howned)

end View

/-- Running only the calls on a key gives the same replies to them, the same value of the key and
the same records for their identifiers. -/
theorem keys_independent (calls : List Call) (hids : IdsBound calls) (key : GoString) :
    ((replies calls).filter fun reply => reply.1.key = key) = replies (callsOn key calls) ∧
      (afterCalls calls).storeMap key = (afterCalls (callsOn key calls)).storeMap key ∧
      ∀ id, UsedFor calls key id →
        (afterCalls calls).idMap id = (afterCalls (callsOn key calls)).idMap id := by
  have hallowed : ∀ call ∈ calls, call.Owned key (UsedFor calls key) := by
    intro call hcall
    cases call with
    | get other => trivial
    | putAppend request =>
        constructor
        · intro hused
          obtain ⟨other, hother, hkey, hid⟩ := hused
          rw [← hkey]
          exact (hids other hother _ hcall (by simp [hid]) hid).symm
        · intro hkey
          exact ⟨_, hcall, hkey, rfl⟩
  obtain ⟨hreplies, hview⟩ := (same_view_unwinding key (UsedFor calls key)).run hallowed
    (s := startKVServer) (t := startKVServer) ⟨rfl, fun id _ => rfl⟩
  exact ⟨hreplies, hview.stored, hview.records⟩

/-- Calls for two keys: an append that is retried and acknowledged, around a put and an early ack
for the other key. -/
def twoKeys : List Call :=
  let appendA : Operation := ⟨.append, ascii ['a'], ascii ['x'], 1⟩
  let putB : Operation := ⟨.put, ascii ['b'], ascii ['y'], 2⟩
  [.putAppend appendA.modify, .putAppend putB.ack, .putAppend putB.modify,
    .putAppend appendA.modify, .get (ascii ['a']), .putAppend appendA.ack, .get (ascii ['b'])]

/-- The replies for each of the two keys are those of its calls alone. -/
theorem keys_independent_two_keys :
    ((replies twoKeys).filter fun reply => reply.1.key = ascii ['a']) =
        replies (callsOn (ascii ['a']) twoKeys) ∧
      ((replies twoKeys).filter fun reply => reply.1.key = ascii ['b']) =
        replies (callsOn (ascii ['b']) twoKeys) := by
  have hids : IdsBound twoKeys := by
    unfold IdsBound
    decide
  exact ⟨(keys_independent twoKeys hids _).1, (keys_independent twoKeys hids _).1⟩

end DistributedLabs.Kvsrv
