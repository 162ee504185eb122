import Mathlib.Algebra.GroupWithZero.Nat
import Mathlib.Logic.Relation
import Mathlib.Tactic.Common

/-!
# Backtracking with a memo

A search goes through the configurations of a space. From a configuration it tries its moves in
their order; a move may fail. The search goes on from the configuration that a move leads to, unless
it was there before, and returns to the configuration below on its stack when no move is left.

`SearchStep` is one step of such a search. The memo has every configuration that was entered, those
that are still open included. `Memo` says when it may be used: two configurations that count as the
same have the same future, and a move leads one level up, so that a configuration that is found in
the memo is not an open one. `Searching` is what every step keeps; when the search has nothing left
to try, every configuration that can be reached was closed, up to `Memo.Sim`. The search comes to
its end whatever the memo says, since `variant` decreases.
-/

namespace DistributedLabs

variable {Config Move : Type}

/-- A space to search in. -/
structure Space (Config Move : Type) where
  root : Config
  moves : Config → List Move
  next : Config → Move → Option Config
  goal : Config → Bool

namespace Space

variable (space : Space Config Move)

/-- A move leads from one configuration to the other. -/
def Leads (config later : Config) : Prop :=
  ∃ move ∈ space.moves config, space.next config move = some later

/-- A configuration that can be reached from the root. -/
def Reached (config : Config) : Prop :=
  Relation.ReflTransGen space.Leads space.root config

/-- When configurations count as the same, and why this is right. -/
structure Memo where
  same : Config → Config → Bool
  /-- the second configuration has the future of the first -/
  Sim : Config → Config → Prop
  level : Config → Nat
  sim_refl : ∀ config, space.Reached config → Sim config config
  sim_trans : ∀ first second third, Sim first second → Sim second third → Sim first third
  sim_of_same : ∀ first second, space.Reached first → space.Reached second →
    same first second = true → Sim first second
  level_of_leads : ∀ config later, space.Reached config → space.Leads config later →
    level later = level config + 1
  level_of_sim : ∀ first second, Sim first second → level first = level second
  goal_of_sim : ∀ first second, Sim first second → space.goal first = space.goal second
  leads_of_sim : ∀ first second later, Sim first second → space.Leads first later →
    ∃ other, space.Leads second other ∧ Sim later other

end Space

/-- The state of a search: the configuration where it is and the moves left there, the same for the
configurations below on the stack, the memo, and the configurations that were given up. -/
structure Backtrack (Config Move : Type) where
  config : Config
  todo : List Move
  stack : List (Config × List Move)
  visited : List Config
  closed : List Config

variable {space : Space Config Move}

/-- One step of a search. -/
inductive SearchStep (space : Space Config Move) (same : Config → Config → Bool) :
    Backtrack Config Move → Backtrack Config Move → Prop where
  /-- a move fails, or leads to a configuration where the search was before -/
  | skip (config move rest stack visited closed)
      (hskip : ∀ later, space.next config move = some later →
        ∃ other ∈ visited, same later other = true) :
      SearchStep space same ⟨config, move :: rest, stack, visited, closed⟩
        ⟨config, rest, stack, visited, closed⟩
  /-- a move leads to a new configuration -/
  | push (config move rest stack visited closed) (later)
      (hlater : space.next config move = some later)
      (hnew : ∀ other ∈ visited, same later other = false) :
      SearchStep space same ⟨config, move :: rest, stack, visited, closed⟩
        ⟨later, space.moves later, (config, rest) :: stack, visited ++ [later], closed⟩
  /-- no move is left -/
  | pop (config below rest stack visited closed) :
      SearchStep space same ⟨config, [], (below, rest) :: stack, visited, closed⟩
        ⟨below, rest, stack, visited, closed ++ [config]⟩

/-- The start of a search. -/
def Backtrack.start (space : Space Config Move) : Backtrack Config Move :=
  ⟨space.root, space.moves space.root, [], [], []⟩

/-! ## What every step keeps -/

section Searching

variable (memo : space.Memo)

/-- The configuration was given up, or one with its future was. -/
def Covered (closed : List Config) (config : Config) : Prop :=
  ∃ other ∈ closed, memo.Sim config other

/-- The moves that are no longer left were tried: they lead to covered configurations, or to the
one above. -/
def Tried (closed : List Config) (config : Config) (todo : List Move)
    (above : Config → Prop) : Prop :=
  ∃ tried, space.moves config = tried ++ todo ∧
    ∀ move ∈ tried, ∀ later, space.next config move = some later →
      above later ∨ Covered memo closed later

/-- The stack below a configuration, down to the root. -/
inductive Below (closed : List Config) : Config → List (Config × List Move) → Prop where
  | root : Below closed space.root []
  | frame {config below rest stack} (hleads : space.Leads below config)
      (htried : Tried memo closed below rest (· = config)) (hbelow : Below closed below stack) :
      Below closed config ((below, rest) :: stack)

/-- What a search keeps. -/
structure Searching (s : Backtrack Config Move) : Prop where
  below : Below memo s.closed s.config s.stack
  tried : Tried memo s.closed s.config s.todo fun _ => False
  visited : ∀ config ∈ s.visited,
    config = s.config ∨ config ∈ s.stack.map Prod.fst ∨ config ∈ s.closed
  closed_reached : ∀ config ∈ s.closed, space.Reached config
  closed_goal : ∀ config ∈ s.closed, space.goal config = false
  closed_leads : ∀ config ∈ s.closed, ∀ later, space.Leads config later →
    Covered memo s.closed later

variable {memo} {closed more : List Config} {config later : Config} {todo : List Move}
  {stack : List (Config × List Move)} {above : Config → Prop} {s s' : Backtrack Config Move}

/-- What is covered stays covered. -/
theorem Covered.append (h : Covered memo closed config) : Covered memo (closed ++ more) config := by
  obtain ⟨other, hmem, hsim⟩ := h
  exact ⟨other, List.mem_append_left more hmem, hsim⟩

/-- What was tried stays tried. -/
theorem Tried.append (h : Tried memo closed config todo above) :
    Tried memo (closed ++ more) config todo above := by
  obtain ⟨tried, hmoves, hlater⟩ := h
  refine ⟨tried, hmoves, fun move hmove later hnext => ?_⟩
  exact (hlater move hmove later hnext).imp id Covered.append

/-- Giving up more configurations keeps the stack. -/
theorem Below.append (h : Below memo closed config stack) :
    Below memo (closed ++ more) config stack := by
  induction h with
  | root => exact .root
  | frame hleads htried _ ih => exact .frame hleads htried.append ih

/-- A configuration on top of a stack can be reached. -/
theorem Below.reached (h : Below memo closed config stack) : space.Reached config := by
  induction h with
  | root => exact .refl
  | frame hleads _ _ ih => exact ih.tail hleads

/-- An empty stack is below the root. -/
theorem Below.eq_root (h : Below memo closed config []) : config = space.root := by
  cases h
  rfl

/-- Everything on the stack can be reached, and is on a lower level than what is on top of it. -/
theorem Below.level_lt (h : Below memo closed config stack) :
    ∀ below ∈ stack.map Prod.fst, space.Reached below ∧ memo.level below < memo.level config := by
  induction h with
  | root => simp
  | @frame config below rest stack hleads _ hbelow ih =>
      intro other hother
      have hlevel := memo.level_of_leads _ _ hbelow.reached hleads
      rcases List.mem_cons.mp hother with heq | hmem
      · obtain rfl : other = below := heq
        exact ⟨hbelow.reached, by omega⟩
      · obtain ⟨hreached, hlt⟩ := ih other hmem
        exact ⟨hreached, by omega⟩

/-- The search starts in order. -/
theorem searching_start : Searching memo (Backtrack.start space) where
  below := .root
  tried := ⟨[], rfl, by simp⟩
  visited := by simp [Backtrack.start]
  closed_reached := by simp [Backtrack.start]
  closed_goal := by simp [Backtrack.start]
  closed_leads := by simp [Backtrack.start]

/-- The configuration where the search is can be reached. -/
theorem Searching.reached (h : Searching memo s) : space.Reached s.config :=
  h.below.reached

/-- The first move that is left leads to a configuration one level up. -/
theorem Searching.leads (h : Searching memo s) {move : Move} {rest : List Move}
    (htodo : s.todo = move :: rest) (hnext : space.next s.config move = some later) :
    space.Leads s.config later := by
  obtain ⟨tried, hmoves, -⟩ := h.tried
  refine ⟨move, ?_, hnext⟩
  rw [hmoves, htodo]
  exact List.mem_append_right tried List.mem_cons_self

/-- A configuration one level up that is found in the memo was given up before. -/
theorem Searching.covered_of_same (h : Searching memo s) (hleads : space.Leads s.config later)
    {other : Config} (hother : other ∈ s.visited) (hsame : memo.same later other = true) :
    Covered memo s.closed later := by
  have hlevel := memo.level_of_leads _ _ h.reached hleads
  have hreached : space.Reached later := h.reached.tail hleads
  -- an open configuration is not on the level above
  have hopen : ∀ config, space.Reached config → memo.same later config = true →
      memo.level config = memo.level s.config + 1 := by
    intro config hconfig hsame
    have hsim := memo.sim_of_same _ _ hreached hconfig hsame
    rw [← memo.level_of_sim _ _ hsim, hlevel]
  rcases h.visited other hother with heq | hbelow | hclosed
  · subst heq
    have hsame' := hopen s.config h.reached hsame
    omega
  · obtain ⟨hother, hlt⟩ := h.below.level_lt other hbelow
    have hsame' := hopen other hother hsame
    omega
  · exact ⟨other, hclosed, memo.sim_of_same _ _ hreached (h.closed_reached other hclosed) hsame⟩

/-- Every step from a configuration that is not a goal keeps the search in order. -/
theorem Searching.step (h : Searching memo s) (hgoal : space.goal s.config = false)
    (hstep : SearchStep space memo.same s s') : Searching memo s' := by
  cases hstep with
  | skip config move rest stack visited closed hskip =>
      refine { h with tried := ?_ }
      obtain ⟨tried, hmoves, htried⟩ := h.tried
      refine ⟨tried ++ [move], by simpa using hmoves, fun other hother later hlater => ?_⟩
      rcases List.mem_append.mp hother with hold | hnew
      · exact htried other hold later hlater
      · obtain rfl := List.mem_singleton.mp hnew
        obtain ⟨seen, hseen, hsame⟩ := hskip later hlater
        exact Or.inr (h.covered_of_same (h.leads rfl hlater) hseen hsame)
  | push config move rest stack visited closed later hlater hnew =>
      have hleads : space.Leads config later := h.leads rfl hlater
      obtain ⟨tried, hmoves, htried⟩ := h.tried
      refine { h with
        below := .frame hleads ?_ h.below
        tried := ⟨[], rfl, by simp⟩
        visited := ?_ }
      · refine ⟨tried ++ [move], by simpa using hmoves, fun other hother found hfound => ?_⟩
        rcases List.mem_append.mp hother with hold | hlast
        · exact Or.inr ((htried other hold found hfound).resolve_left id)
        · obtain rfl := List.mem_singleton.mp hlast
          exact Or.inl (Option.some.inj (hfound.symm.trans hlater))
      · intro other hother
        rcases List.mem_append.mp hother with hold | hlast
        · rcases h.visited other hold with heq | hbelow | hclosed
          · exact Or.inr (Or.inl (List.mem_cons.mpr (Or.inl heq)))
          · exact Or.inr (Or.inl (List.mem_cons_of_mem _ hbelow))
          · exact Or.inr (Or.inr hclosed)
        · exact Or.inl (List.mem_singleton.mp hlast)
  | pop config below rest stack visited closed =>
      have hlast : config ∈ closed ++ [config] := List.mem_append_right _ List.mem_cons_self
      have hself : Covered memo (closed ++ [config]) config :=
        ⟨config, hlast, memo.sim_refl config h.reached⟩
      -- all moves of the configuration that is given up were tried
      have hmoves : ∀ later, space.Leads config later →
          Covered memo (closed ++ [config]) later := by
        intro later hleads
        obtain ⟨move, hmove, hlater⟩ := hleads
        obtain ⟨tried, htried, hcovered⟩ := h.tried
        have hmem : move ∈ tried := by
          rw [List.append_nil] at htried
          rwa [← htried]
        exact ((hcovered move hmem later hlater).resolve_left id).append
      have hbelow := h.below
      cases hbelow with
      | frame hleads htried hbelow =>
          refine ⟨hbelow.append, ?_, ?_, ?_, ?_, ?_⟩
          · obtain ⟨tried, hsplit, hlater⟩ := htried
            refine ⟨tried, hsplit, fun move hmove later hnext => Or.inr ?_⟩
            rcases hlater move hmove later hnext with heq | hcovered
            · rw [heq]
              exact hself
            · exact hcovered.append
          · intro other hother
            rcases h.visited other hother with heq | hmem | hclosed
            · exact Or.inr (Or.inr (List.mem_append_right _ (List.mem_singleton.mpr heq)))
            · rcases List.mem_cons.mp hmem with heq | hmem
              · exact Or.inl heq
              · exact Or.inr (Or.inl hmem)
            · exact Or.inr (Or.inr (List.mem_append_left _ hclosed))
          · intro other hother
            rcases List.mem_append.mp hother with hold | hnew
            · exact h.closed_reached other hold
            · rw [List.mem_singleton.mp hnew]
              exact h.reached
          · intro other hother
            rcases List.mem_append.mp hother with hold | hnew
            · exact h.closed_goal other hold
            · rw [List.mem_singleton.mp hnew]
              exact hgoal
          · intro other hother later hlater
            rcases List.mem_append.mp hother with hold | hnew
            · exact (h.closed_leads other hold later hlater).append
            · rw [List.mem_singleton.mp hnew] at hlater
              exact hmoves later hlater

/-- A search that has nothing left to try has given up every configuration that can be reached, up
to what has the same future, and none of them is a goal. -/
theorem Searching.exhausted (h : Searching memo s) (hgoal : space.goal s.config = false)
    (htodo : s.todo = []) (hstack : s.stack = []) (hreached : space.Reached config) :
    Covered memo (s.closed ++ [space.root]) config ∧ space.goal config = false := by
  have hroot : s.config = space.root := by
    have hbelow := h.below
    rw [hstack] at hbelow
    exact hbelow.eq_root
  have hcovered : Covered memo (s.closed ++ [space.root]) config := by
    induction hreached with
    | refl =>
        exact ⟨space.root, List.mem_append_right _ List.mem_cons_self, memo.sim_refl _ .refl⟩
    | @tail middle last _ hleads ih =>
        obtain ⟨other, hother, hsim⟩ := ih
        obtain ⟨found, hfound, hsim'⟩ := memo.leads_of_sim _ _ _ hsim hleads
        have hnext : Covered memo s.closed found := by
          rcases List.mem_append.mp hother with hclosed | hlast
          · exact h.closed_leads other hclosed found hfound
          · obtain rfl := List.mem_singleton.mp hlast
            obtain ⟨move, hmove, hlater⟩ := hfound
            obtain ⟨tried, hmoves, htried⟩ := h.tried
            rw [hroot, htodo, List.append_nil] at hmoves
            rw [hmoves] at hmove
            exact (htried move hmove found (hroot ▸ hlater)).resolve_left id
        obtain ⟨final, hfinal, hsim''⟩ := hnext
        exact ⟨final, List.mem_append_left _ hfinal, memo.sim_trans _ _ _ hsim' hsim''⟩
  refine ⟨hcovered, ?_⟩
  obtain ⟨other, hother, hsim⟩ := hcovered
  rw [memo.goal_of_sim _ _ hsim]
  rcases List.mem_append.mp hother with hclosed | hlast
  · exact h.closed_goal other hclosed
  · rw [List.mem_singleton.mp hlast, ← hroot]
    exact hgoal

/-! ## The end of a search -/

section Variant

variable (memo) (width depth : Nat)

/-- What one move of a configuration may cost. -/
def weight (config : Config) : Nat :=
  (width + 2) ^ (depth + 1 - memo.level config)

/-- What the search may still cost. -/
def variant (s : Backtrack Config Move) : Nat :=
  s.todo.length * weight memo width depth s.config +
    (s.stack.map fun frame => frame.2.length * weight memo width depth frame.1 + 1).sum

variable {memo width depth}

/-- A move costs more than all moves of the configuration that it leads to. -/
theorem weight_of_leads (hreached : space.Reached config) (hleads : space.Leads config later)
    (hdepth : memo.level later ≤ depth) :
    width * weight memo width depth later + 2 ≤ weight memo width depth config := by
  have hlevel := memo.level_of_leads _ _ hreached hleads
  have hsucc : depth + 1 - memo.level config = depth + 1 - memo.level later + 1 := by omega
  have hpos : 0 < (width + 2) ^ (depth + 1 - memo.level later) := Nat.pow_pos (by omega)
  unfold weight
  rw [hsucc, Nat.pow_succ, Nat.mul_comm _ (width + 2), Nat.add_mul]
  omega

/-- Every step brings the search closer to its end, if the configurations have at most `width` moves
and are on the levels up to `depth`. -/
theorem Searching.variant_lt (h : Searching memo s)
    (hwidth : ∀ config, space.Reached config → (space.moves config).length ≤ width)
    (hdepth : ∀ config, space.Reached config → memo.level config ≤ depth)
    (hstep : SearchStep space memo.same s s') :
    variant memo width depth s' < variant memo width depth s := by
  cases hstep with
  | skip config move rest stack visited closed hskip =>
      have hpos : 0 < weight memo width depth config := Nat.pow_pos (by omega)
      simp only [variant, List.length_cons, Nat.add_mul, Nat.one_mul]
      omega
  | push config move rest stack visited closed later hlater hnew =>
      have hleads : space.Leads config later := h.leads rfl hlater
      have hreached : space.Reached later := h.reached.tail hleads
      have hweight : width * weight memo width depth later + 2 ≤ weight memo width depth config :=
        weight_of_leads h.reached hleads (hdepth later hreached)
      have hmoves := Nat.mul_le_mul_right (weight memo width depth later) (hwidth later hreached)
      simp only [variant, List.length_cons, List.map_cons, List.sum_cons, Nat.add_mul, Nat.one_mul]
      omega
  | pop config below rest stack visited closed =>
      simp only [variant, List.length_nil, List.map_cons, List.sum_cons, Nat.zero_mul]
      omega

end Variant

end Searching

end DistributedLabs
