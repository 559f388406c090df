import DistRocks.Cluster.Invariants

/-!
# The rounds of `reBalance`

* `Reached` : the worlds in which `reBalance` is called; `Fresh.reached` : they are at rest and keep the invariants;
* `Rest.traced` : the history of `reBalance` is a run of the protocol whose marks are the tests of its loops;
* `Consecutive` : two tests with no test between them; `Traced.between` : one migration lies between them, or none;
* `Followed` : behind every test that lets a round begin comes the next one of its loop, with one pair less in the node;
  `Rest.follows_reBalance` : so it is with the tests of `reBalance`;
* `World.withSizes` : other numbers in the size counters; `reBalance_rounds` : with any of them `reBalance` ends, and
  every round takes one of at least two keys out of its node.
-/

namespace DistRocks

open Proc

variable {n : ℕ} {O : Origin} {V : View} {σ₀ σ : Stage} {answers : List Bytes} {w₀ w : World} {marks : Act → Prop}
  {h mid : List Event} {e e' : Event}

/-! ## Where `reBalance` is called -/

/-- A world that the console comes to from `w₀` by commands in `P`: at its prompt, or behind the update of a command. -/
inductive Reached (F : Type) [Double F] (P : Command → Prop) (w₀ : World) : World → Prop
  | prompt {cs : List Command} (hcs : ∀ c ∈ cs, P c) (hrun : (run F cs w₀).1 = .ok ()) : Reached F P w₀ (run F cs w₀).2
  | update {cs : List Command} {c : Command} (hcs : ∀ c ∈ cs, P c) (hrun : (run F cs w₀).1 = .ok ()) (hc : P c)
      (hupdate : (c.update (run F cs w₀).2).1 = .ok ()) : Reached F P w₀ (c.update (run F cs w₀).2).2

theorem Fresh.reached (F : Type) [Double F] {P : Command → Prop} {I : View → Prop} (hI : Kept n P I)
    (hP : ∀ c, P c → c.Valid) (hw : Fresh n w₀) (h : Reached F P w₀ w) :
    ∃ O V answers data, Rest n O answers V w ∧ Holds n V data ∧ I V := by
  have hgo : ∀ {cs : List Command}, (∀ c ∈ cs, P c) → (DistRocks.run F cs w₀).1 = .ok () → ∃ V₀ V answers data,
      Sim n (.first V₀) ⟨.command, V, []⟩ answers (DistRocks.run F cs w₀).2 ∧ Holds n V data ∧ I V := fun hcs hrun => by
    obtain ⟨V₀, hends⟩ := hw.run F hI fun c hc => ⟨hP c (hcs c hc), hcs c hc⟩
    obtain ⟨-, V, hsim, hdata, hinv⟩ := hends.of_eq (Prod.ext hrun rfl)
    exact ⟨V₀, V, _, _, hsim, hdata, hinv⟩
  cases h with
  | prompt hcs hrun =>
      obtain ⟨V₀, V, answers, data, hsim, hkept⟩ := hgo hcs hrun
      exact ⟨_, V, _, data, hsim.rest (Or.inl rfl), hkept⟩
  | @update cs c hcs hrun hc hupdate =>
      obtain ⟨V₀, V, answers, data, hsim, hdata, hinv⟩ := hgo hcs hrun
      have hV : Placed n V := hsim.valid.placed
      cases hr : c.record with
      | some r =>
          obtain ⟨i, s, hroute, hp, hdone⟩ := (hsim.update hw.pos (hP c hc) hr).of_eq (Prod.ext hupdate rfl)
          exact ⟨_, _, _, _, hdone.rest (Or.inr hp), holds_user hdata hV (Command.record_kind hr) hroute,
            hI.user hc hr hV hroute hinv⟩
      | none =>
          have hpure : c.update = pure () := by cases c <;> first | rfl | cases hr
          rw [hpure]
          exact ⟨_, V, _, data, hsim.rest (Or.inl rfl), hdata, hinv⟩

/-- `reBalance` ends between two plans or in the middle of one, at a stage of the protocol seen from its beginning. -/
theorem Rest.traced (F : Type) [Double F] (h : Rest n O answers V w) :
    ∃ σ answers', Sim n (.rounds V w.history fun _ => True) σ answers' (DistRocks.reBalance F w).2 ∧
      ((DistRocks.reBalance F w).1 = .ok () ∧ σ.Complete n ∨ (DistRocks.reBalance F w).1 = .error .overrun) := by
  have hends := (h.rebase fun _ => True).reBalance F fun pass i => ⟨pass, i, rfl, trivial⟩
  rcases hends.outcome with
    ⟨a, hok, V₁, older, -, -, ⟨V₂, -, σ, hσ, hdone, -⟩, -⟩ | ⟨e, herr, V', pass, i, k, v, -, ⟨rfl, made, -, hsim, -⟩, -⟩
  · exact ⟨σ, _, hσ, Or.inl ⟨hok, hdone⟩⟩
  · exact ⟨_, _, hsim, Or.inr herr⟩

/-- The sum that `reBalance` starts with. -/
theorem Rest.totalSize (h : Rest n O answers V w) : (DistRocks.totalSize w).1 = .ok (totalOf n V) := by
  obtain ⟨σ, hσ, -, rfl⟩ := h
  rcases (hσ.totalSize (H := fun _ _ => False)).outcome with ⟨a, hok, rfl, -⟩ | ⟨-, -, hfalse⟩
  · exact hok
  · exact hfalse.elim

theorem Rest.shows (h : Rest n O answers V w) : Shows n w.cluster V := by
  obtain ⟨σ, hσ, -, rfl⟩ := h
  exact hσ.shows

/-- With another cluster, that shows placed nodes. -/
theorem Rest.withCluster {V' : View} {c : Cluster} (h : Rest n O answers V w) (hV : Placed n V') (hc : Shows n c V') :
    Rest n ⟨⟨.command, V', []⟩, w.history, fun _ => True⟩ answers V' { w with cluster := c } := by
  have hvalid : Valid n ⟨.command, V', []⟩ := ⟨hV, fun c hc => absurd hc List.not_mem_nil, Or.inl rfl⟩
  obtain ⟨σ, hσ, -, rfl⟩ := h
  exact ⟨⟨.command, V', []⟩, ⟨hσ.count, hσ.refusals, hσ.answered, hc, [], rfl, .start hvalid⟩, Or.inl rfl, rfl⟩

/-! ## Between two tests -/

/-- The event sends a record to a log. -/
def Act.Logs (a : Act) : Prop := ∃ j r, a.logged j = some r

/-- `e` and `e'` are marks of the history, with the events `mid` and no mark between them. -/
structure Consecutive (h : List Event) (e : Event) (mid : List Event) (e' : Event) : Prop where
  split : ∃ newer older, h = newer ++ e' :: (mid ++ e :: older)
  first : e.act.IsMark
  second : e'.act.IsMark
  between : ∀ x ∈ mid, ¬x.act.IsMark

/-- A change that stands on the list has been performed. -/
theorem Traced.performed (ht : Traced n marks σ₀ h σ) (h₀ : σ₀.made = []) {c : Change} (hc : c ∈ σ.made) :
    ∃ x ∈ h, ∃ V, c.Performs V x.act := by
  induction ht with
  | start => exact absurd (h₀ ▸ hc) List.not_mem_nil
  | @event h σ σ' x ht hstep hmark hbefore hafter ih =>
      obtain ⟨act, before, after⟩ := x
      cases hstep with
      | read =>
          obtain ⟨x, hx, hperf⟩ := ih hc
          exact ⟨x, List.mem_cons_of_mem _ hx, hperf⟩
      | mark => exact absurd hc List.not_mem_nil
      | change _ _ _ hperf =>
          rcases List.mem_append.mp hc with hold | hnew
          · obtain ⟨x, hx, hperf⟩ := ih hold
            exact ⟨x, List.mem_cons_of_mem _ hx, hperf⟩
          · rw [List.mem_singleton.mp hnew]
            exact ⟨_, List.mem_cons_self, _, hperf⟩

theorem Change.Performs.logged {j : ℕ} {r : Log} {a : Act} (h : (Change.log j r).Performs V a) : a.logged j = some r := by
  cases a with
  | exchange fd msg =>
      obtain ⟨rfl, r', hdec, rfl⟩ := h
      rw [Act.logged, hdec]
      exact if_pos rfl
  | _ => exact False.elim h

theorem Allowed.of_iteration {pass : Pass} {i : ℕ} {p : List Change} (h : Allowed n V (.iteration pass i) p) :
    ∃ k v, Movable n pass i k v V ∧ p = movePlan V pass i k v := by
  cases h with
  | move hmove => exact ⟨_, _, hmove, rfl⟩

theorem Step.logged_read {j fd : ℕ} {msg : Bytes} {q : Request} (hq : decodeRequest msg = .ok q) (hr : q.Reads) :
    (Act.exchange fd msg).logged j = none := by
  rw [Act.logged, hq]
  cases q with
  | log _ => exact hr.elim
  | _ => rfl

/-- An event that sends a record begins or goes on with a plan. -/
theorem Step.of_logged {a : Act} {σ' : Stage} {j : ℕ} {r : Log} (hstep : Step n σ a σ') (ha : a.logged j = some r) :
    σ' = σ.make [.log j r] ∧ ∃ p, Allowed n σ.base σ.mark p ∧ σ.made ++ [.log j r] <+: p := by
  cases hstep with
  | read _ hq hr =>
      rw [Step.logged_read hq hr] at ha
      cases ha
  | mark hm =>
      rw [Act.logged_of_isMark hm] at ha
      cases ha
  | @change _ c p hp hpre _ hperf =>
      cases a with
      | exchange fd msg =>
          cases c with
          | log fd' r' =>
              obtain ⟨rfl, r'', hdec, rfl⟩ := hperf
              rw [Act.logged, hdec] at ha
              obtain ⟨rfl, rfl⟩ : fd = j ∧ r''.recorded = r := by simpa using ha
              exact ⟨rfl, p, hp, hpre⟩
          | commit fd' =>
              obtain ⟨-, hdec⟩ := hperf
              rw [Act.logged, hdec] at ha
              cases ha
          | _ => exact False.elim hperf
      | _ => cases ha

/-- Without marks the base stays, and the list grows with the first record. -/
theorem Traced.base_eq (ht : Traced n marks σ₀ h σ) (hmid : ∀ x ∈ h, ¬x.act.IsMark) :
    σ.mark = σ₀.mark ∧ σ.base = σ₀.base := by
  induction ht with
  | start => exact ⟨rfl, rfl⟩
  | @event h σ σ' x _ hstep _ _ _ ih =>
      have hx := hmid _ List.mem_cons_self
      have hold := ih fun x hx => hmid x (List.mem_cons_of_mem _ hx)
      obtain ⟨act, before, after⟩ := x
      cases hstep with
      | read | change => exact hold
      | mark ha => exact absurd ha hx

theorem Traced.made_ne_nil (ht : Traced n marks σ₀ h σ) (hmid : ∀ x ∈ h, ¬x.act.IsMark) (hlog : ∃ x ∈ h, x.act.Logs) :
    σ.made ≠ [] := by
  induction ht with
  | start => obtain ⟨x, hx, -⟩ := hlog; cases hx
  | @event h σ σ' x ht hstep _ _ _ ih =>
      obtain ⟨y, hy, j, r, hr⟩ := hlog
      have hx := hmid _ List.mem_cons_self
      rcases List.mem_cons.mp hy with rfl | hy
      · rw [(hstep.of_logged hr).1]
        simp [Stage.make]
      · have hold := ih (fun x hx => hmid x (List.mem_cons_of_mem _ hx)) ⟨y, hy, j, r, hr⟩
        obtain ⟨act, before, after⟩ := x
        cases hstep with
        | read => exact hold
        | mark ha => exact absurd ha hx
        | change => simp [Stage.make]

/-- The mark of a stage is the latest in the history, and its base is what the cluster showed there. -/
theorem Traced.latest (ht : Traced n marks σ₀ h σ) :
    (σ.mark = σ₀.mark ∧ σ.base = σ₀.base) ∨ ∃ mid e older, h = mid ++ e :: older ∧ (∀ x ∈ mid, ¬x.act.IsMark) ∧
      e.act.IsMark ∧ marks e.act ∧ σ.mark = e.act ∧ Shows n e.after σ.base := by
  induction ht with
  | start => exact Or.inl ⟨rfl, rfl⟩
  | @event h σ σ' x ht hstep hmark _ hafter ih =>
      have hkeep : ¬x.act.IsMark → σ'.mark = σ.mark → σ'.base = σ.base → (σ'.mark = σ₀.mark ∧ σ'.base = σ₀.base) ∨
          ∃ mid e older, x :: h = mid ++ e :: older ∧ (∀ x ∈ mid, ¬x.act.IsMark) ∧ e.act.IsMark ∧ marks e.act ∧
            σ'.mark = e.act ∧ Shows n e.after σ'.base := by
        intro hx hm hb
        rw [hm, hb]
        rcases ih with h₀ | ⟨mid, e, older, rfl, hmid, he⟩
        · exact Or.inl h₀
        · refine Or.inr ⟨x :: mid, e, older, rfl, fun y hy => ?_, he⟩
          rcases List.mem_cons.mp hy with rfl | hy
          · exact hx
          · exact hmid y hy
      obtain ⟨act, before, after⟩ := x
      cases hstep with
      | read => exact hkeep id rfl rfl
      | mark ha hσ => exact Or.inr ⟨[], _, h, rfl, fun _ hx => absurd hx List.not_mem_nil, ha, hmark ha, rfl, hafter⟩
      | change _ _ _ hperf => exact hkeep hperf.not_isMark rfl rfl

/-- Between two marks the changes of one plan are made, or none. -/
theorem Traced.between (ht : Traced n marks σ₀ h σ) (hc : Consecutive h e mid e') :
    marks e.act ∧ ∃ V made, Shows n e.after V ∧ Shows n e'.after (V.after made) ∧ Valid n ⟨e.act, V, made⟩ ∧
      Stage.Complete n ⟨e.act, V, made⟩ ∧ Traced n marks ⟨e.act, V, []⟩ mid ⟨e.act, V, made⟩ := by
  obtain ⟨newer, older, rfl⟩ := hc.split
  obtain ⟨⟨mark, base, made⟩, σ₂, ht, hstep', -, -, hafter', -⟩ := ht.split
  obtain ⟨σ₃, σ₄, hold, hstep, hmark, -, hafter, htmid⟩ := ht.split
  obtain ⟨-, rfl⟩ := hstep.of_mark hc.first
  obtain ⟨hdone, rfl⟩ := hstep'.of_mark hc.second
  obtain ⟨rfl, rfl⟩ : mark = e.act ∧ base = σ₃.view := htmid.base_eq hc.between
  exact ⟨hmark hc.first, σ₃.view, made, hafter, hafter', htmid.valid, hdone, htmid⟩

/-- Between two tests of the loops one migration is made, or no record is sent. -/
theorem Traced.round (ht : Traced n marks σ₀ h σ) (hc : Consecutive h e mid e') {pass : Pass} {i : ℕ}
    (he : e.act = .iteration pass i) :
    ∃ V V', Placed n V ∧ Shows n e.after V ∧ Shows n e'.after V' ∧
      ((∃ x ∈ mid, x.act.Logs) → Moves n pass i V V') ∧ ((∀ x ∈ mid, ¬x.act.Logs) → V' = V) := by
  obtain ⟨-, V, made, hafter, hafter', hvalid, hdone, htmid⟩ := ht.between hc
  refine ⟨V, V.after made, hvalid.placed, hafter, hafter', fun hlog => ?_, fun hlog => ?_⟩
  · have hne := htmid.made_ne_nil hc.between hlog
    obtain ⟨k, v, hmove, hmade⟩ := Allowed.of_iteration (he ▸ hdone.resolve_left hne)
    exact ⟨k, v, hmove, hmade ▸ hvalid.sound, congrArg V.after hmade⟩
  · rcases hdone with hnil | hp
    · exact congrArg V.after hnil
    · obtain ⟨k, v, -, hmade⟩ := Allowed.of_iteration (he ▸ hp)
      have hfirst : Change.log i ⟨.delete, k, []⟩ ∈ made := by
        rw [show made = _ from hmade]
        exact List.mem_cons_self
      obtain ⟨x, hx, V', hperf⟩ := htmid.performed rfl hfirst
      exact absurd ⟨i, _, hperf.logged⟩ (hlog x hx)

/-- What migrations of placed nodes keep holds at every stage between two plans. -/
theorem Traced.keeps {P : View → Prop} (hmarks : ∀ a, marks a → ∃ pass i, a = .iteration pass i)
    (hmove : ∀ {pass i V V'}, Placed n V → Moves n pass i V V' → P V → P V') (h₀ : ∃ pass i, σ₀.mark = .iteration pass i)
    (hP : P σ₀.base) (ht : Traced n marks σ₀ h σ) : P σ.base ∧ (σ.Complete n → P σ.view) := by
  have hview : ∀ {σ : Stage}, Valid n σ → (∃ pass i, σ.mark = .iteration pass i) → P σ.base → σ.Complete n → P σ.view := by
    rintro ⟨_, base, made⟩ hvalid ⟨pass, i, rfl⟩ hbase (rfl | hp)
    · exact hbase
    · obtain ⟨k, v, hmoves, hmade⟩ := Allowed.of_iteration hp
      exact hmove hvalid.placed ⟨k, v, hmoves, hmade ▸ hvalid.sound, congrArg base.after hmade⟩ hbase
  have hbase : (∃ pass i, σ.mark = .iteration pass i) ∧ P σ.base := by
    induction ht with
    | start => exact ⟨h₀, hP⟩
    | @event h σ σ' x ht hstep hmark _ _ ih =>
        obtain ⟨act, before, after⟩ := x
        cases hstep with
        | read | change => exact ih
        | mark ha hσ => exact ⟨hmarks _ (hmark ha), hview ht.valid ih.1 ih.2 hσ⟩
  exact ⟨hbase.2, hview ht.valid hbase.1 hbase.2⟩

theorem Moves.length {pass : Pass} {i : ℕ} {V' : View} (h : Moves n pass i V V') :
    2 ≤ (V.node i).data.entries.length ∧ (V'.node i).data.entries.length + 1 = (V.node i).data.entries.length := by
  obtain ⟨k, v, hmove, -, rfl⟩ := h
  exact ⟨hmove.two, length_after_move hmove⟩

/-! ## Tests that let a round begin -/

section Begun
variable {F : Type} [Double F] {total : ℤ} {perfect : F} {calm : Node → Prop} {begins last last' : Event → Prop}
  {new older : List Event} {pass : Pass} {i : ℕ} {x : Event}

/-- What `notTooMuch` answers between two plans. -/
theorem Rest.notTooMuch_iff (h : Rest n O answers V w) (hi : i < n) :
    (DistRocks.notTooMuch F i total perfect w).1 = .ok true ↔ Calm F total perfect (V.node i) := by
  obtain ⟨σ, hσ, -, rfl⟩ := h
  rcases (hσ.notTooMuch F hi total perfect (H := fun _ _ => False)).outcome with ⟨b, hb, hiff, -⟩ | ⟨-, -, hfalse⟩
  · rw [hb, ← hiff, Except.ok.injEq]
  · exact hfalse.elim

/-- Of other nodes than those of the constructor nothing can be asked. -/
theorem lt_of_notTooMuch {b : Bool} (h : (DistRocks.notTooMuch F i total perfect w).1 = .ok b) :
    i < w.storeNodeCount := by
  by_contra hge
  have hlen : Request.size.message.length ≤ MAXLINE := by decide
  obtain ⟨buff, hbuff, -⟩ := assemble_eq (w := w) hlen
  have hcall : call i Request.size.message w = (.error .undefined, { w with sendBuff := buff }) := by
    rw [call, bind_run hbuff, exchange, get_bind_run, if_neg hge]
    rfl
  rw [DistRocks.notTooMuch, getSize_eq, bind_run_error (bind_run_error hcall)] at h
  cases h

theorem Calm.of_storeData {nd nd' : Node} (h : nd'.storeData = nd.storeData) (hcalm : Calm F total perfect nd') :
    Calm F total perfect nd := by
  have hdata : nd'.data = nd.data := congrArg (fun d : StoreData => d.dbHandle.db) h
  have hsize : nd'.size = nd.size := congrArg StoreData.size h
  rwa [Calm, hdata, hsize] at hcalm

/-- The event is a test of a loop at which the node is not calm, so that a round begins. -/
def Event.Begins (n : ℕ) (calm : Node → Prop) (e : Event) : Prop :=
  ∃ pass i V, e.act = .iteration pass i ∧ Shows n e.after V ∧ ¬calm (V.node i)

/-- In `c` the node of the test has one pair less than at the test. -/
def Event.Takes (e : Event) (c : Cluster) : Prop :=
  ∀ pass i, e.act = .iteration pass i → (c.pairs i).length + 1 = (e.after.pairs i).length

/-- Behind every event in `begins` comes the next test, of the same loop and with one pair less, or no test comes and the
event is in `last`. -/
def Followed (begins last : Event → Prop) (h : List Event) : Prop :=
  ∀ newer e older, h = newer ++ e :: older → begins e →
    (∃ newer' e' mid, newer = newer' ++ e' :: mid ∧ (∀ x ∈ mid, ¬x.act.IsMark) ∧ e'.act = e.act ∧ e.Takes e'.after) ∨
      (∀ x ∈ newer, ¬x.act.IsMark) ∧ last e

theorem Event.Begins.isMark (he : e.Begins n calm) : e.act.IsMark := by
  obtain ⟨pass, i, V, hact, -⟩ := he
  rw [hact]
  trivial

namespace Followed

theorem nil : Followed begins last [] := by
  intro newer e older hsplit
  cases newer <;> cases hsplit

theorem mono (h : Followed begins last new) (hlast : ∀ e, begins e → last e → last' e) : Followed begins last' new := by
  intro newer e older hsplit he
  exact (h newer e older hsplit he).imp_right fun hl => ⟨hl.1, hlast e he hl.2⟩

/-- Events that are not tests change nothing. -/
theorem quiet (h : Followed begins last older) (hbegins : ∀ e, begins e → e.act.IsMark)
    (hnew : ∀ x ∈ new, ¬x.act.IsMark) : Followed begins last (new ++ older) := by
  induction new with
  | nil => exact h
  | cons x new ih =>
      have hx := hnew x List.mem_cons_self
      intro newer e rest hsplit he
      cases newer with
      | nil =>
          obtain ⟨rfl, -⟩ := List.cons.inj hsplit
          exact absurd (hbegins _ he) hx
      | cons y newer =>
          obtain ⟨rfl, hrest⟩ := List.cons.inj hsplit
          rcases ih (fun y hy => hnew y (List.mem_cons_of_mem _ hy)) newer e rest hrest he with
            ⟨newer', e', mid, rfl, hmid⟩ | ⟨hno, hl⟩
          · exact Or.inl ⟨x :: newer', e', mid, rfl, hmid⟩
          · refine Or.inr ⟨fun y hy => ?_, hl⟩
            rcases List.mem_cons.mp hy with rfl | hy
            · exact hx
            · exact hno y hy

/-- A test comes next to the event that was left open. -/
theorem mark (h : Followed begins last older) (hx : ∀ e, begins e → last e → x.act = e.act ∧ e.Takes x.after) :
    Followed begins (· = x) (x :: older) := by
  intro newer e rest hsplit he
  cases newer with
  | nil =>
      obtain ⟨rfl, -⟩ := List.cons.inj hsplit
      exact Or.inr ⟨fun _ hy => absurd hy List.not_mem_nil, rfl⟩
  | cons y newer =>
      obtain ⟨rfl, hrest⟩ := List.cons.inj hsplit
      rcases h newer e rest hrest he with ⟨newer', e', mid, rfl, hmid⟩ | ⟨hno, hl⟩
      · exact Or.inl ⟨x :: newer', e', mid, rfl, hmid⟩
      · exact Or.inl ⟨[], x, newer, rfl, hno, hx e he hl⟩

end Followed

/-- The events since `older` are `Followed`. -/
def Follows (older : List Event) (begins last : Event → Prop) (w : World) : Prop :=
  ∃ new, w.history = new ++ older ∧ Followed begins last new

theorem Traced.unmarked (ht : Traced n (fun _ => False) σ₀ h σ) : ∀ x ∈ h, ¬x.act.IsMark := by
  induction ht with
  | start => exact fun x hx => absurd hx List.not_mem_nil
  | event _ _ hmark _ _ ih =>
      intro x hx
      rcases List.mem_cons.mp hx with rfl | hx
      · exact hmark
      · exact ih x hx

/-- Seen from an origin without tests, a program has made none. -/
theorem Follows.unmarked {w' : World} {τ : Stage} (h : Follows older (Event.Begins n calm) last w)
    (hsim : Sim n ⟨τ, w.history, fun _ => False⟩ σ answers w') : Follows older (Event.Begins n calm) last w' := by
  obtain ⟨new, hnew, hfol⟩ := h
  obtain ⟨new', hnew', ht⟩ := hsim.traced
  exact ⟨new' ++ new, by rw [hnew', hnew, List.append_assoc], hfol.quiet (fun _ he => he.isMark) ht.unmarked⟩

theorem Follows.mono (h : Follows older begins last w) (hlast : ∀ e, begins e → last e → last' e) :
    Follows older begins last' w :=
  h.imp fun _ hnew => ⟨hnew.1, hnew.2.mono hlast⟩

theorem Rest.follows_drain (h : Rest n O answers V w) (hO : ∀ i, O.marks (.iteration pass i)) (hadj : pass.Adjacent n i)
    (hfol : Follows older (Event.Begins n (Calm F total perfect)) (fun _ => False) w) :
    Ends (DistRocks.drain F pass total perfect i) w
      (fun on w' => on = true ∧ (∃ V', Rest n O answers V' w') ∧
        Follows older (Event.Begins n (Calm F total perfect)) (fun _ => False) w')
      (fun _ w' => Follows older (Event.Begins n (Calm F total perfect)) (fun _ => True) w') := by
  rw [DistRocks.drain, ends_bind, ends_get]
  refine ends_repeatWhile
    (I := fun w => (∃ V', Rest n O answers V' w) ∧ Follows older (Event.Begins n (Calm F total perfect))
      (fun e => e.act = .iteration pass i ∧ e.Takes w.cluster) w)
    (m := fun w => (w.cluster.stores i).storeData.dbHandle.db.entries.length) (fun w₁ hI => ?_) _ w
    ⟨⟨V, h⟩, hfol.mono fun _ _ hl => hl.elim⟩ (Nat.lt_succ_self _)
  obtain ⟨⟨V₁, σ, hσ, hcomplete, rfl⟩, new, hnew, hfol₁⟩ := hI
  let x : Event := ⟨.iteration pass i, w₁.cluster, w₁.cluster⟩
  have hmark : Ends (DistRocks.mark (.iteration pass i)) w₁ (fun _ w₂ => w₂.history = x :: w₁.history)
      (fun _ _ => False) := rfl
  have hboth := (hσ.mark hcomplete (a := .iteration pass i) trivial (hO i) (H := fun _ _ => False)).and hmark
  refine (hboth.mono (fun _ _ hq => hq) fun _ _ he => he.2.elim).bind fun _ w₂ h₂ => ?_
  obtain ⟨⟨h₂, -⟩, hhist⟩ := h₂
  -- the test is the next one of this loop, and is now the latest
  have hfol₂ : Follows older (Event.Begins n (Calm F total perfect)) (· = x) w₂ :=
    ⟨x :: new, by rw [hhist, hnew]; rfl, hfol₁.mark fun e _ hl => ⟨hl.1.symm, hl.2⟩⟩
  have htest := (h₂.notTooMuch F hadj.lt total perfect (H := fun _ _ => False)).and
    ((h₂.rebase h₂.valid rfl fun _ => False).notTooMuch F hadj.lt total perfect (H := fun _ _ => False))
  refine (htest.mono (fun _ _ hq => hq) fun _ _ he => he.1.elim).bind fun calm w₃ h₃ => ?_
  obtain ⟨⟨hcalm, h₃⟩, -, hsince⟩ := h₃
  have hfol₃ := hfol₂.unmarked hsince
  rw [ends_pure]
  cases calm with
  | true =>
      refine ⟨rfl, ⟨σ.view, h₃.rest (Or.inl rfl)⟩, hfol₃.mono fun e he hx => ?_⟩
      obtain ⟨pass', i', V', hact, hshows, hrough⟩ := he
      subst hx
      obtain ⟨-, rfl⟩ : pass = pass' ∧ i = i' := by simpa [x] using hact
      refine hrough ((hcalm.mp rfl).of_storeData ?_)
      exact ((hσ.shows.stores hadj.lt).data.symm.trans (hshows.stores hadj.lt).data)
  | false =>
      have hrough : ¬Calm F total perfect (σ.view.node i) := fun hc => Bool.false_ne_true (hcalm.mpr hc)
      obtain ⟨k, v, hmove⟩ := exists_movable hadj hrough
      have hround := (h₃.migrate hmove).and ((h₃.rebase h₃.valid rfl fun _ => False).migrate hmove)
      refine hround.mono (fun on w₄ h₄ => ?_) fun _ w₄ he => ?_
      · obtain ⟨⟨rfl, h₄⟩, -, hsince⟩ := h₄
        have hdone := h₄.rest (Or.inr (.move hmove))
        have hlen : (w₄.cluster.pairs i).length + 1 = (w₁.cluster.pairs i).length := by
          rw [h₄.shows.pairs hadj.lt, hσ.shows.pairs hadj.lt]
          exact length_after_move hmove
        refine ⟨⟨⟨_, hdone⟩, (hfol₃.unmarked hsince).mono fun e _ hx => ?_⟩, ?_⟩
        · subst hx
          refine ⟨rfl, fun pass' i' hact => ?_⟩
          obtain ⟨-, rfl⟩ : pass = pass' ∧ i = i' := by simpa [x] using hact
          exact hlen
        · show (w₄.cluster.pairs i).length < (w₁.cluster.pairs i).length
          omega
      · obtain ⟨-, ⟨-, made, c, hsince, -⟩, -⟩ := he
        exact (hfol₃.unmarked hsince).mono fun _ _ _ => trivial

theorem Rest.follows_runPass (h : Rest n O answers V w) (hO : ∀ i, O.marks (.iteration pass i))
    (hfol : Follows older (Event.Begins n (Calm F total perfect)) (fun _ => False) w) :
    Ends (DistRocks.runPass F pass total perfect) w
      (fun on w' => on = true ∧ (∃ V', Rest n O answers V' w') ∧
        Follows older (Event.Begins n (Calm F total perfect)) (fun _ => False) w')
      (fun _ w' => Follows older (Event.Begins n (Calm F total perfect)) (fun _ => True) w') := by
  have hstart : (∃ V', Rest n O answers V' w) ∧
      Follows older (Event.Begins n (Calm F total perfect)) (fun _ => False) w := ⟨⟨V, h⟩, hfol⟩
  refine ends_runPass h.count (fun i w₁ hadj hI => ?_) hstart
  obtain ⟨⟨V₁, h₁⟩, hfol₁⟩ := hI
  exact h₁.follows_drain hO hadj hfol₁

end Begun

/-- Every test of `reBalance` that lets a round begin is followed by the next one of its loop, unless the run ends in
that round. -/
theorem Rest.follows_reBalance (F : Type) [Double F] (h : Rest n O answers V w)
    (hO : ∀ pass i, O.marks (.iteration pass i)) :
    Ends (DistRocks.reBalance F) w
      (fun _ w' => Follows w.history (Event.Begins n (Calm F (totalOf n V) (perfectShare F n))) (fun _ => False) w')
      (fun _ w' => Follows w.history (Event.Begins n (Calm F (totalOf n V) (perfectShare F n))) (fun _ => True) w') := by
  obtain ⟨σ, hσ, hdone, rfl⟩ := h
  have hstart : Follows w.history (Event.Begins n (Calm F (totalOf n σ.view) (perfectShare F n))) (fun _ => False) w :=
    ⟨[], rfl, .nil⟩
  rw [DistRocks.reBalance]
  have htotal := (hσ.totalSize (H := fun _ _ => False)).and
    ((hσ.rebase hσ.valid rfl fun _ => False).totalSize (H := fun _ _ => False))
  refine (htotal.mono (fun _ _ hq => hq) fun _ _ he => he.1.elim).bind fun a w₁ h₁ => ?_
  obtain ⟨⟨rfl, h₁⟩, -, hsince⟩ := h₁
  rw [ends_bind, ends_get, h₁.count]
  refine ((h₁.rest hdone).follows_runPass (hO .forward) (hstart.unmarked hsince)).bind fun on w₂ h₂ => ?_
  obtain ⟨rfl, ⟨V₂, h₂⟩, hfol₂⟩ := h₂
  refine (h₂.follows_runPass (hO .backward) hfol₂).bind fun on w₃ h₃ => ?_
  obtain ⟨rfl, ⟨V₃, σ₃, h₃, hdone₃, rfl⟩, hfol₃⟩ := h₃
  have hV := h₃.valid.placed_view hdone₃
  have hshow := (h₃.showMeta hV (H := fun _ _ => False)).and
    ((h₃.rebase h₃.valid rfl fun _ => False).showMeta hV (H := fun _ _ => False))
  exact hshow.mono (fun _ _ hq => hfol₃.unmarked hq.2) fun _ _ he => he.1.elim

/-! ## Termination -/

/-- The same world with other numbers in the size counters. -/
def World.withSizes (w : World) (size : ℕ → ℤ) : World :=
  { w with cluster := { w.cluster with stores := fun j =>
    { w.cluster.stores j with storeData := ⟨(w.cluster.stores j).storeData.dbHandle, size j⟩ } } }

/-- The size counters do not matter to the order of the nodes. -/
theorem Rest.withSizes (h : Rest n O answers V w) (size : ℕ → ℤ) :
    ∃ O V, Rest n O answers V (w.withSizes size) := by
  have hV := h.placed
  let V' : View := ⟨fun j => { V.node j with size := size j }, V.table⟩
  have hV' : Placed n V' := ⟨hV.filled, hV.quiet, hV.within, hV.stored, hV.sound⟩
  have hshows : Shows n (w.withSizes size).cluster V' :=
    { stores := fun {j} hj => by
        obtain ⟨hdata, hlog, hstorable⟩ := h.shows.stores hj
        refine ⟨?_, hlog, hstorable⟩
        show StoreData.mk (w.cluster.stores j).storeData.dbHandle (size j) = _
        rw [hdata]
        rfl
      index := h.shows.index }
  exact ⟨_, V', h.withCluster hV' hshows⟩

/-- Whatever the size counters hold, `reBalance` ends: a test lets a round begin with two keys or more in its node only,
and the next test is one of the same loop that finds exactly one key less there, if the run does not end in that round. -/
theorem reBalance_rounds (F : Type) [Double F] (hw : Fresh n w₀) (hr : Reached F Command.Valid w₀ w) (size : ℕ → ℤ) :
    ((reBalance F (w.withSizes size)).1 = .ok () ∨ (reBalance F (w.withSizes size)).1 = .error .overrun) ∧
      ∃ total new, (totalSize (w.withSizes size)).1 = .ok total ∧
        (reBalance F (w.withSizes size)).2.history = new ++ w.history ∧
        (∀ newer e older pass i, new = newer ++ e :: older → e.act = .iteration pass i →
          (notTooMuch F i total (perfectShare F n) { w.withSizes size with cluster := e.after }).1 = .ok false →
          2 ≤ (e.after.pairs i).length ∧
            ((∃ newer' e' mid, newer = newer' ++ e' :: mid ∧ (∀ x ∈ mid, ¬x.act.IsMark) ∧ e'.act = .iteration pass i ∧
                (e'.after.pairs i).length + 1 = (e.after.pairs i).length) ∨
              (∀ x ∈ newer, ¬x.act.IsMark) ∧ (reBalance F (w.withSizes size)).1 = .error .overrun)) ∧
        (∀ e mid e' pass i, Consecutive new e mid e' → e.act = .iteration pass i → (∃ x ∈ mid, x.act.Logs) →
          2 ≤ (e.after.pairs i).length ∧ (e'.after.pairs i).length + 1 = (e.after.pairs i).length) ∧
        ∀ newer x older, new = newer ++ x :: older → x.act.Logs →
          ∃ mid e rest pass i, older = mid ++ e :: rest ∧ (∀ y ∈ mid, ¬y.act.IsMark) ∧ e.act = .iteration pass i ∧
            2 ≤ (e.after.pairs i).length := by
  have hkept : Kept n Command.Valid fun _ => True := ⟨fun _ => trivial, fun _ _ _ _ _ => trivial, fun _ _ _ => trivial⟩
  obtain ⟨O, V, answers, data, hrest, -⟩ := hw.reached F hkept (fun _ hc => hc) hr
  obtain ⟨O', V', hrest'⟩ := hrest.withSizes size
  obtain ⟨σ, answers', hsim, hout⟩ := hrest'.traced F
  obtain ⟨new, hnew, ht⟩ := hsim.traced
  have hfol : Followed (Event.Begins n (Calm F (totalOf n V') (perfectShare F n)))
      (fun _ => (reBalance F (w.withSizes size)).1 = .error .overrun) new := by
    have hends := (hrest'.rebase fun _ => True).follows_reBalance F fun pass i => ⟨pass, i, rfl, trivial⟩
    rcases hends.outcome with ⟨a, hok, new', hnew', hfol⟩ | ⟨e, herr, new', hnew', hfol⟩
    · obtain rfl : new' = new := List.append_cancel_right (hnew'.symm.trans hnew)
      exact hfol.mono fun _ _ hl => hl.elim
    · obtain rfl : new' = new := List.append_cancel_right (hnew'.symm.trans hnew)
      refine hfol.mono fun _ _ _ => hout.resolve_left fun hok => ?_
      rw [herr] at hok
      cases hok.1
  refine ⟨hout.imp_left And.left, totalOf n V', new, hrest'.totalSize, hnew,
    fun newer e older pass i hsplit he hfalse => ?_, fun e mid e' pass i hc he hlog => ?_,
    fun newer x older hsplit hlog => ?_⟩
  · have hmem : e ∈ new := hsplit ▸ List.mem_append_right _ List.mem_cons_self
    obtain ⟨V₁, hV₁, -, hafter⟩ := ht.placed_of_mark hmem (he ▸ trivial)
    have hat := hrest'.withCluster hV₁ hafter
    have hi : i < n := (lt_of_notTooMuch hfalse).trans_eq hrest'.count
    have hrough : ¬Calm F (totalOf n V') (perfectShare F n) (V₁.node i) := fun hcalm => by
      rw [(hat.notTooMuch_iff hi).mpr hcalm] at hfalse
      cases hfalse
    refine ⟨?_, ?_⟩
    · rw [hafter.pairs hi]
      exact not_le.mp fun hle => hrough (Or.inr hle)
    · have hnext := hfol newer e older hsplit ⟨pass, i, V₁, he, hafter, hrough⟩
      rcases hnext with ⟨newer', e', mid, hsplit', hmid, hact, htakes⟩ | hlast
      · exact Or.inl ⟨newer', e', mid, hsplit', hmid, hact.trans he, htakes pass i he⟩
      · exact Or.inr hlast
  · obtain ⟨V₁, V₂, -, hafter, hafter', hmoves, -⟩ := ht.round hc he
    obtain ⟨k, v, hmove, -⟩ := hmoves hlog
    have hlen := (hmoves hlog).length
    rw [hafter.pairs hmove.adjacent.lt, hafter'.pairs hmove.adjacent.lt]
    exact hlen
  · obtain ⟨j, r, hlog⟩ := hlog
    rw [hsplit] at ht
    obtain ⟨σ₁, σ₂, hold, hstep, -, -, -, -⟩ := ht.split
    obtain ⟨-, p, hp, hpre⟩ := hstep.of_logged hlog
    rcases hold.latest with ⟨hmark, -⟩ | ⟨mid, e, rest, rfl, hmid, -, ⟨pass, i, he, -⟩, hmark, hafter⟩
    · -- before the first test no plan can begin
      rw [hmark] at hp
      obtain ⟨k, v, hmove, -⟩ := Allowed.of_iteration hp
      exact absurd hmove.adjacent.1 (lt_irrefl 0)
    · rw [hmark, he] at hp
      obtain ⟨k, v, hmove, -⟩ := Allowed.of_iteration hp
      refine ⟨mid, e, rest, pass, i, rfl, hmid, he, ?_⟩
      rw [hafter.pairs hmove.adjacent.lt]
      exact hmove.two

/-- Two keys, one in each store after balancing. -/
def twoPuts : List Command := [.put (text "a") (text "x"), .put (text "b") (text "y")]

theorem run_twoPuts : (DistRocks.run ℚ twoPuts twoStores).1 = .ok () := by decide +kernel

theorem update_third :
    ((Command.put (text "c") (text "z")).update (DistRocks.run ℚ twoPuts twoStores).2).1 = .ok () := by
  decide +kernel

/-- Behind a third `put`, node 1 holds two keys. -/
def sampleReached : World :=
  ((Command.put (text "c") (text "z")).update (DistRocks.run ℚ twoPuts twoStores).2).2

theorem reached_sampleReached {P : Command → Prop} (hP : ∀ c ∈ twoPuts, P c) (hc : P (.put (text "c") (text "z"))) :
    Reached ℚ P twoStores sampleReached :=
  .update hP run_twoPuts hc update_third

theorem reBalance_rounds_sampleReached :
    ((reBalance ℚ (sampleReached.withSizes fun _ => 7)).1 = .ok () ∨
        (reBalance ℚ (sampleReached.withSizes fun _ => 7)).1 = .error .overrun) ∧
      ∃ total new, (totalSize (sampleReached.withSizes fun _ => 7)).1 = .ok total ∧
        (reBalance ℚ (sampleReached.withSizes fun _ => 7)).2.history = new ++ sampleReached.history ∧
        (∀ newer e older pass i, new = newer ++ e :: older → e.act = .iteration pass i →
          (notTooMuch ℚ i total (perfectShare ℚ 2) { sampleReached.withSizes (fun _ => 7) with cluster := e.after }).1 =
              .ok false →
          2 ≤ (e.after.pairs i).length ∧
            ((∃ newer' e' mid, newer = newer' ++ e' :: mid ∧ (∀ x ∈ mid, ¬x.act.IsMark) ∧ e'.act = .iteration pass i ∧
                (e'.after.pairs i).length + 1 = (e.after.pairs i).length) ∨
              (∀ x ∈ newer, ¬x.act.IsMark) ∧ (reBalance ℚ (sampleReached.withSizes fun _ => 7)).1 = .error .overrun)) ∧
        (∀ e mid e' pass i, Consecutive new e mid e' → e.act = .iteration pass i → (∃ x ∈ mid, x.act.Logs) →
          2 ≤ (e.after.pairs i).length ∧ (e'.after.pairs i).length + 1 = (e.after.pairs i).length) ∧
        ∀ newer x older, new = newer ++ x :: older → x.act.Logs →
          ∃ mid e rest pass i, older = mid ++ e :: rest ∧ (∀ y ∈ mid, ¬y.act.IsMark) ∧ e.act = .iteration pass i ∧
            2 ≤ (e.after.pairs i).length :=
  reBalance_rounds ℚ twoStores_fresh (reached_sampleReached (by decide) (by decide)) _

end DistRocks
