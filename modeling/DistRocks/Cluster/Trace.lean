import DistRocks.Cluster.View
import DistRocks.Control.Messages

/-!
# The protocol of the control node as a transition system

* `Shows n c V` : the databases of the cluster `c` hold the view `V`;
* `Stage` : the last mark, the view there, and the changes made since; `Step` : what one event can do to a stage;
* `Valid` : the nodes were placed at the last mark, and the changes since are the beginning of an allowed plan, each of
  them legal (`Valid.legal`); `Step.valid` : a step keeps it;
* `Traced` : a history as a run of steps, each event between clusters that show its two views; `Traced.split` : an event
  of it is a step between two stages.
-/

namespace DistRocks

/-- How the table is kept in the metadata: under its lower end, the record of an interval. -/
def encSpan (j : ℕ) (s : Bytes × Bytes) : Bytes := encMeta ⟨s.1, s.2, j⟩

/-- The first `n` stores hold their nodes, and the metadata the table. -/
structure Shows (n : ℕ) (c : Cluster) (V : View) : Prop where
  stores : ∀ {j}, j < n → (c.stores j).Reflects (V.node j)
  index : ∃ m, c.metaDb = .reliable m ∧ Spans.Indexes encSpan m V.table

def Act.IsMark : Act → Prop
  | .iteration _ _ | .command => True
  | _ => False

/-- The event carries out the change. -/
def Change.Performs (V : View) : Change → Act → Prop
  | .log j r, .exchange j' msg => j' = j ∧ ∃ r', decodeRequest msg = .ok (.log r') ∧ r'.recorded = r
  | .commit j, .exchange j' msg => j' = j ∧ decodeRequest msg = .ok .commitLog
  | .unfile i, .metaDelete key => ∃ s, V.table.span i = some s ∧ key = s.1
  | .file _ s, .metaPut key => key = s.1
  | _, _ => False

structure Stage where
  mark : Act
  base : View
  made : List Change

namespace Stage

noncomputable def view (σ : Stage) : View := σ.base.after σ.made

def make (σ : Stage) (cs : List Change) : Stage := { σ with made := σ.made ++ cs }

/-- Nothing has been begun since the mark, or a whole plan is done. -/
def Complete (n : ℕ) (σ : Stage) : Prop := σ.made = [] ∨ Allowed n σ.base σ.mark σ.made

@[simp] theorem view_make (σ : Stage) (cs : List Change) : (σ.make cs).view = σ.view.after cs := by
  simp [make, view]

@[simp] theorem make_make (σ : Stage) (cs cs' : List Change) : (σ.make cs).make cs' = σ.make (cs ++ cs') := by
  simp [make]

end Stage

inductive Step (n : ℕ) : Stage → Act → Stage → Prop
  | read {σ : Stage} {j : ℕ} {msg : Bytes} {q : Request} (hj : j < n) (hq : decodeRequest msg = .ok q) (hr : q.Reads) :
      Step n σ (.exchange j msg) σ
  | mark {σ : Stage} {a : Act} (ha : a.IsMark) (hσ : σ.Complete n) : Step n σ a ⟨a, σ.view, []⟩
  | change {σ : Stage} {a : Act} {c : Change} {p : List Change} (hp : Allowed n σ.base σ.mark p)
      (hpre : σ.made ++ [c] <+: p) (hc : c.Sound) (ha : c.Performs σ.view a) : Step n σ a (σ.make [c])

/-! ## Invariant -/

structure Valid (n : ℕ) (σ : Stage) : Prop where
  placed : Placed n σ.base
  sound : ∀ c ∈ σ.made, c.Sound
  plan : σ.made = [] ∨ ∃ p, Allowed n σ.base σ.mark p ∧ σ.made <+: p

namespace Valid

variable {n : ℕ} {σ : Stage}

/-- A complete stage shows placed nodes. -/
theorem placed_view (h : Valid n σ) (hσ : σ.Complete n) : Placed n σ.view := by
  rcases hσ with hnil | hp
  · rw [Stage.view, hnil]
    exact h.placed
  · exact hp.placed h.placed h.sound

/-- The changes made so far were legal, and so is what follows them in a plan. -/
theorem legal (h : Valid n σ) {p cs : List Change} (hp : Allowed n σ.base σ.mark p) (hpre : σ.made ++ cs <+: p) :
    LegalPath σ.base σ.made ∧ LegalPath σ.view cs := by
  obtain ⟨rest, rfl⟩ := hpre
  exact legalPath_append.mp (legalPath_append.mp (hp.legal h.placed)).1

end Valid

theorem Step.valid {n : ℕ} {σ σ' : Stage} {a : Act} (h : Valid n σ) (hstep : Step n σ a σ') : Valid n σ' := by
  cases hstep with
  | read => exact h
  | mark ha hσ => exact ⟨h.placed_view hσ, fun c hc => absurd hc List.not_mem_nil, Or.inl rfl⟩
  | change hp hpre hc ha =>
      refine ⟨h.placed, fun c' hc' => ?_, Or.inr ⟨_, hp, hpre⟩⟩
      rcases List.mem_append.mp hc' with hc' | hc'
      · exact h.sound c' hc'
      · rw [List.mem_singleton.mp hc']
        exact hc

/-! ## Runs of steps -/

/-- A history, newest event first, as a run of the protocol from the stage `σ₀`, with marks from `marks` only. -/
inductive Traced (n : ℕ) (marks : Act → Prop) (σ₀ : Stage) : List Event → Stage → Prop
  | start (h₀ : Valid n σ₀) : Traced n marks σ₀ [] σ₀
  | event {h : List Event} {σ σ' : Stage} {e : Event} (ht : Traced n marks σ₀ h σ) (hstep : Step n σ e.act σ')
      (hmark : e.act.IsMark → marks e.act) (hbefore : Shows n e.before σ.view) (hafter : Shows n e.after σ'.view) :
      Traced n marks σ₀ (e :: h) σ'

namespace Traced

variable {n : ℕ} {marks : Act → Prop} {σ₀ σ : Stage} {h newer older : List Event}

theorem valid (ht : Traced n marks σ₀ h σ) : Valid n σ := by
  induction ht with
  | start h₀ => exact h₀
  | event _ hstep _ _ _ ih => exact hstep.valid ih

/-- A run stops anywhere and goes on from there. -/
theorem append (ht : Traced n marks σ₀ (newer ++ older) σ) :
    ∃ σ₁, Traced n marks σ₀ older σ₁ ∧ Traced n marks σ₁ newer σ := by
  induction newer generalizing σ with
  | nil => exact ⟨σ, ht, .start ht.valid⟩
  | cons e newer ih =>
      cases ht with
      | event ht hstep hmark hbefore hafter =>
          obtain ⟨σ₁, hold, hnew⟩ := ih ht
          exact ⟨σ₁, hold, hnew.event hstep hmark hbefore hafter⟩

/-- Every event of a run is a step between the stages around it. -/
theorem split {e : Event} (ht : Traced n marks σ₀ (newer ++ e :: older) σ) :
    ∃ σ₁ σ₂, Traced n marks σ₀ older σ₁ ∧ Step n σ₁ e.act σ₂ ∧ (e.act.IsMark → marks e.act) ∧ Shows n e.before σ₁.view ∧
      Shows n e.after σ₂.view ∧ Traced n marks σ₂ newer σ := by
  obtain ⟨σ₂, hold, hnew⟩ := ht.append
  cases hold with
  | event hold hstep hmark hbefore hafter => exact ⟨_, σ₂, hold, hstep, hmark, hbefore, hafter, hnew⟩

end Traced

end DistRocks
