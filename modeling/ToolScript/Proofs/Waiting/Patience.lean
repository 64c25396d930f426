import Mathlib.Data.ENat.Basic
import ToolScript.Proofs.Waiting.Outlasting

/-!
# Patience

Tools may answer later or earlier and with the same answers. A run with hastier tools and at
least as much patience outlasts the run it is compared with, and a run whose tools answer at
once and only count the turns that they save outlasts every run whose patience it exceeds.
-/

namespace ToolScript

variable {σ : Type}

/-- The turns that an answer takes, which are infinitely many if it never comes. -/
def Reply.cost (reply : Reply) : ℕ∞ :=
  match reply.turns with
  | some n => n
  | none => ⊤

theorem Reply.cost_some {reply : Reply} {n : Nat} (h : reply.turns = some n) :
    reply.cost = n := by
  simp only [cost, h]

/-- An answer of finite cost comes. -/
theorem Reply.turns_of_cost_le {reply : Reply} {patience : Nat} (h : reply.cost ≤ patience) :
    ∃ n ≤ patience, reply.turns = some n ∧ reply.cost = n := by
  cases hturns : reply.turns with
  | some n =>
      have hcost := cost_some hturns
      rw [hcost, Nat.cast_le] at h
      exact ⟨n, h, rfl, hcost⟩
  | none =>
      simp only [cost, hturns, top_le_iff] at h
      exact absurd h (ENat.natCast_ne_top patience)

namespace Run

/-- A call within the patience of the run gets its answer. -/
theorem invoke_answered {tool : Tool σ} {args : Arguments} (h : tool.misfit? args = none)
    {world : World σ} {n : Nat} (hturns : (tool.run args world.memory).1.turns = some n)
    (hle : n ≤ world.patience) (pos : Position) (name : String) :
    invoke pos name tool args world =
      (answer pos name (tool.run args world.memory).1.result,
        { called name tool args world with patience := world.patience - n }) := by
  rw [invoke_apply h, hturns]
  exact if_pos hle

/-- A call beyond the patience of the run is left pending. -/
theorem invoke_pending {tool : Tool σ} {args : Arguments} (h : tool.misfit? args = none)
    {world : World σ} (hcost : world.patience < (tool.run args world.memory).1.cost)
    (pos : Position) (name : String) :
    invoke pos name tool args world = (.error .cancelled, called name tool args world) := by
  rw [invoke_apply h]
  cases hturns : (tool.run args world.memory).1.turns with
  | none => rfl
  | some n =>
      rw [Reply.cost_some hturns, Nat.cast_lt] at hcost
      exact if_neg (Nat.not_le.mpr hcost)

theorem answer_ne_cancelled (pos : Position) (name : String) (result : Except Refusal Value) :
    answer pos name result ≠ .error .cancelled := by
  rcases result with (_ | _) | _ <;> rintro ⟨⟩

end Run

/-- The second tool gives the answers of the first, none of them later. -/
structure Tool.Hastier (tool hasty : Tool σ) : Prop where
  schema : hasty.schema = tool.schema
  result : ∀ args memory, (hasty.run args memory).1.result = (tool.run args memory).1.result
  memory : ∀ args memory, (hasty.run args memory).2 = (tool.run args memory).2
  cost : ∀ args memory, (hasty.run args memory).1.cost ≤ (tool.run args memory).1.cost

/-- The tools of the second host are hastier, and its clock is the same. -/
structure Host.Hastier (host hasty : Host σ) : Prop where
  clock : hasty.clock = host.clock
  tool : ∀ name, Option.Rel Tool.Hastier (host.tool? name) (hasty.tool? name)

/-- Every host is as hasty as itself. -/
theorem Host.Hastier.refl (host : Host σ) : host.Hastier host where
  clock := rfl
  tool name := by
    cases host.tool? name with
    | none => exact .none
    | some tool => exact .some ⟨rfl, fun _ _ => rfl, fun _ _ => rfl, fun _ _ => le_rfl⟩

namespace World

/-- The worlds are the same, but for the patience that the second one has in addition; both
have done what was done at first. -/
structure InStep (first : List Event) (s t : World σ) : Prop where
  memory : s.memory = t.memory
  readings : s.readings = t.readings
  events : s.events = t.events
  patience : s.patience ≤ t.patience
  grown : first <+: s.events

/-- The first world was left with a call pending, and the second one has gone on from there. -/
structure Ahead (first : List Event) (s t : World σ) : Prop where
  events : s.events <+: t.events
  pending : ∃ before tool args, s.events = first ++ before ++ [.called tool args]

variable {first : List Event} {s t : World σ}

theorem InStep.record (h : InStep first s t) (event : Event) :
    InStep first { s with events := s.events ++ [event] }
      { t with events := t.events ++ [event] } where
  memory := h.memory
  readings := h.readings
  events := congrArg (· ++ [event]) h.events
  patience := h.patience
  grown := h.grown.trans (List.prefix_append _ _)

theorem Ahead.grow (h : Ahead first s t) {u : World σ} (hgrow : t.events <+: u.events) :
    Ahead first s u :=
  ⟨h.events.trans hgrow, h.pending⟩

end World

namespace Run

open World

variable {first : List Event}

/-- Whatever becomes of a call, nothing that was done before is undone. -/
theorem events_prefix_invoke (pos : Position) (name : String) (tool : Tool σ) (args : Arguments)
    (world : World σ) : world.events <+: (invoke pos name tool args world).2.events := by
  cases hmisfit : tool.misfit? args with
  | some misfit =>
      simp only [invoke_misfit hmisfit, List.prefix_refl]
  | none =>
      rw [invoke_apply hmisfit]
      split
      · exact List.prefix_append _ _
      · split <;> exact List.prefix_append _ _

/-- A call of a hastier tool outlasts the call: if its patience does not suffice, neither does
that of the other one. -/
theorem outlasts_invoke {tool hasty : Tool σ} (h : tool.Hastier hasty) (pos : Position)
    (name : String) (args : Arguments) :
    Outlasts (InStep first) (Ahead first) (invoke pos name tool args)
      (invoke pos name hasty args) where
  goesOn s t hst := by
    have hmisfit' : hasty.misfit? args = tool.misfit? args := by
      simp only [Tool.misfit?, h.schema]
    cases hmisfit : tool.misfit? args with
    | some misfit =>
        rw [hmisfit] at hmisfit'
        rw [invoke_misfit hmisfit, invoke_misfit hmisfit']
        exact .inl ⟨rfl, by rintro ⟨⟩, hst⟩
    | none =>
        rw [hmisfit] at hmisfit'
        rcases lt_or_ge (s.patience : ℕ∞) (tool.run args s.memory).1.cost with hlt | hle
        · -- the call is pending here, and recorded already by the other run
          refine .inr ?_
          have hrecorded : (called name tool args s).events <+:
              (invoke pos name hasty args t).2.events := by
            have hcalled : (called name tool args s).events =
                (called name hasty args t).events := congrArg (· ++ [_]) hst.events
            rw [invoke_apply hmisfit', hcalled]
            split
            · exact List.prefix_refl _
            · split <;> exact List.prefix_refl _
          rw [invoke_pending hmisfit hlt]
          obtain ⟨before, hbefore⟩ := hst.grown
          exact ⟨rfl, hrecorded, before, name, args, congrArg (· ++ [_]) hbefore.symm⟩
        · obtain ⟨n, hn, hturns, hcostn⟩ := Reply.turns_of_cost_le hle
          have hhasty : (hasty.run args t.memory).1.cost ≤ n := by
            rw [← hst.memory, ← hcostn]
            exact h.cost args s.memory
          obtain ⟨k, hk, hturns', -⟩ := Reply.turns_of_cost_le hhasty
          have hpatience := hst.patience
          rw [invoke_answered hmisfit hturns hn, invoke_answered hmisfit' hturns' (by omega)]
          refine .inl ⟨?_, answer_ne_cancelled _ _ _, ?_⟩
          · rw [← hst.memory, h.result]
          · exact {
              memory := by
                change (tool.run args s.memory).2 = (hasty.run args t.memory).2
                rw [← hst.memory, h.memory]
              readings := hst.readings
              events := congrArg (· ++ [_]) hst.events
              patience := by
                change s.patience - n ≤ t.patience - k
                omega
              grown := hst.grown.trans (List.prefix_append _ _) }
  stays s t hst := hst.grow (events_prefix_invoke pos name hasty args t)

end Run

/-- A run with hastier tools outlasts the run. -/
theorem Host.Hastier.outlasted {host hasty : Host σ} (h : host.Hastier hasty)
    (first : List Event) :
    Host.Outlasted (World.InStep first) (World.Ahead first) host hasty where
  record event :=
    { goesOn := fun _ _ hst => .inl ⟨rfl, by rintro ⟨⟩, hst.record event⟩
      stays := fun _ _ hst => hst.grow (List.prefix_append _ _) }
  readClock :=
    { goesOn := fun s t hst => by
        refine .inl ⟨?_, by rintro ⟨⟩, ?_⟩
        · change Except.ok (host.clock s.readings) = Except.ok (hasty.clock t.readings)
          rw [h.clock, hst.readings]
        · exact ⟨hst.memory, congrArg (· + 1) hst.readings, hst.events, hst.patience, hst.grown⟩
      stays := fun _ _ hst => hst.grow (List.prefix_refl _) }
  invoke name := by
    have htool := h.tool name
    generalize host.tool? name = tool? at htool ⊢
    generalize hasty.tool? name = hasty? at htool ⊢
    cases htool with
    | none => exact .none
    | some hhastier => exact .some fun pos args => Run.outlasts_invoke hhastier pos name args

/-- The tool that gives the same answers at once. -/
def Tool.prompt (tool : Tool σ) : Tool σ where
  schema := tool.schema
  run args memory :=
    let (reply, after) := tool.run args memory
    ({ reply with turns := some 0 }, after)

/-- The host with all suspensions removed. -/
def Host.prompt (host : Host σ) : Host σ where
  tool? name := (host.tool? name).map Tool.prompt
  clock := host.clock

theorem Host.hastier_prompt (host : Host σ) : host.Hastier host.prompt where
  clock := rfl
  tool name := by
    simp only [Host.prompt]
    cases host.tool? name with
    | none => exact .none
    | some tool => exact .some ⟨rfl, fun _ _ => rfl, fun _ _ => rfl, fun _ _ => zero_le⟩

/-- The tool that gives the same answers at once and adds up the turns that it saves. -/
def Tool.metered (tool : Tool σ) : Tool (σ × ℕ∞) where
  schema := tool.schema
  run args memory :=
    let (reply, after) := tool.run args memory.1
    ({ reply with turns := some 0 }, after, memory.2 + reply.cost)

/-- The host whose tools answer at once and add up the turns that they save. -/
def Host.metered (host : Host σ) : Host (σ × ℕ∞) where
  tool? name := (host.tool? name).map Tool.metered
  clock := host.clock

namespace World

/-- The worlds agree, and what the second one has saved is what the first one has spent of its
patience. -/
structure Spends (patience : Nat) (s : World σ) (t : World (σ × ℕ∞)) : Prop where
  memory : s.memory = t.memory.1
  readings : s.readings = t.readings
  saved : t.memory.2 + s.patience = patience

/-- The second world has saved more than the patience of the first one. -/
def Overspends (patience : Nat) (_ : World σ) (t : World (σ × ℕ∞)) : Prop :=
  patience < t.memory.2

end World

namespace Run

open World

variable {patience : Nat}

/-- Calls of metered tools save the turns that calls spend. -/
theorem outlasts_metered (tool : Tool σ) (pos : Position) (name : String) (args : Arguments) :
    Outlasts (Spends patience) (Overspends patience) (invoke pos name tool args)
      (invoke pos name tool.metered args) where
  goesOn s t hst := by
    cases hmisfit : tool.misfit? args with
    | some misfit =>
        rw [invoke_misfit hmisfit, invoke_misfit (show tool.metered.misfit? args = _ from hmisfit)]
        exact .inl ⟨rfl, by rintro ⟨⟩, hst⟩
    | none =>
        rw [invoke_answered (n := 0) (show tool.metered.misfit? args = none from hmisfit) rfl
          (Nat.zero_le _)]
        rcases lt_or_ge (s.patience : ℕ∞) (tool.run args s.memory).1.cost with hlt | hle
        · rw [invoke_pending hmisfit hlt]
          refine .inr ⟨rfl, ?_⟩
          change (patience : ℕ∞) < t.memory.2 + (tool.run args t.memory.1).1.cost
          -- what is saved so far is finite, so adding it keeps the inequality strict
          have hfinite : t.memory.2 ≠ ⊤ := by
            intro htop
            have hsaved := hst.saved
            rw [htop, top_add] at hsaved
            exact ENat.natCast_ne_top patience hsaved.symm
          rw [← hst.saved, ← hst.memory]
          exact (ENat.add_lt_add_iff_left hfinite).mpr hlt
        · obtain ⟨n, hn, hturns, hcost⟩ := Reply.turns_of_cost_le hle
          rw [invoke_answered hmisfit hturns hn]
          refine .inl ⟨?_, answer_ne_cancelled _ _ _, ?_⟩
          · rw [hst.memory]
            rfl
          · exact {
              memory := by
                change (tool.run args s.memory).2 = (tool.run args t.memory.1).2
                rw [hst.memory]
              readings := hst.readings
              saved := by
                change t.memory.2 + (tool.run args t.memory.1).1.cost +
                  ((s.patience - n : Nat) : ℕ∞) = patience
                rw [← hst.memory, hcost, add_assoc, ← Nat.cast_add,
                  Nat.add_sub_cancel' hn, hst.saved] }
  stays s t hst := by
    cases hmisfit : tool.misfit? args with
    | some misfit =>
        rw [invoke_misfit (show tool.metered.misfit? args = _ from hmisfit)]
        exact hst
    | none =>
        rw [invoke_answered (n := 0) (show tool.metered.misfit? args = none from hmisfit) rfl
          (Nat.zero_le _)]
        exact lt_of_lt_of_le hst le_self_add

end Run

/-- A metered run outlasts the run, and is ahead as soon as the patience does not suffice. -/
theorem Host.outlasted_metered (host : Host σ) (patience : Nat) :
    Host.Outlasted (World.Spends patience) (World.Overspends patience) host host.metered where
  record event :=
    { goesOn := fun _ _ hst => .inl ⟨rfl, by rintro ⟨⟩, hst.memory, hst.readings, hst.saved⟩
      stays := fun _ _ hst => hst }
  readClock :=
    { goesOn := fun s t hst => by
        refine .inl ⟨?_, by rintro ⟨⟩, hst.memory, congrArg (· + 1) hst.readings, hst.saved⟩
        change Except.ok (host.clock s.readings) = Except.ok (host.clock t.readings)
        rw [hst.readings]
      stays := fun _ _ hst => hst }
  invoke name := by
    simp only [Host.metered]
    cases host.tool? name with
    | none => exact .none
    | some tool => exact .some fun pos args => Run.outlasts_metered tool pos name args

end ToolScript
