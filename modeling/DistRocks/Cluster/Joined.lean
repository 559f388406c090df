import DistRocks.Cluster.Console
import DistRocks.Cluster.Stops

/-!
# Messages received as one

* `run_joined` : in any order of steps, and whichever messages are received as one, every state is one of the run with one
  exchange at a time, or the control node waits for ever behind a `test`;
* `Script.meets_writing` : commands of which one writes have a request to store 0;
* `run_hangs` : so the control node may, when a `test` is followed by such commands.
-/

namespace DistRocks

open ConstValues Proc Network

variable {α : Type} {w w' : World} {o : Own} {cs : List Command}

/-- In whatever order the control node and the stores take their steps, and whichever messages are received as one: no
execution goes on for ever; the control node is where it is in the run with one exchange at a time, and wherever all
processes stop, so are the databases; and where no step is left, that run has ended, or the control node waits for store 0,
which has not read the request behind a `test`. -/
theorem run_joined (F : Type) [Double F] {cs : List Command} {w : World} (href : w.refusals = [])
    (hrun : (run F cs w).1 = .ok ()) :
    ∃ bound, ∀ l c, Joining.Run Script.move StoreImpl.take joined l (w.net F cs) c →
      l ≤ bound ∧
      (∀ k, c.phase = .ready k → ∃ S, (∀ i, (c.server i).shown = (S i).shown) ∧
        Relation.ReflTransGen Script.Step ((Script.run F cs, w.own), w.cluster.stores) (k, S)) ∧
      (∀ cl ∈ stops c, ∃ c₀, Visited w (run F cs w).2 c₀ ∧ SameBases c₀ cl) ∧
      ((∃ c', Joining.Step Script.move StoreImpl.take joined c c') ∨
        (c.Lost 0 ∧ ∃ s, .test s ∈ cs) ∨
        c.phase = .ready (.pure (), (run F cs w).2.own) ∧ c.requests = [] ∧ c.replies = [] ∧
          ∀ i, (c.server i).shown = ((run F cs w).2.cluster.stores i).shown) := by
  obtain ⟨n, hall⟩ := joined_stands F href hrun
  refine ⟨4 * n + 2, fun l c hc => ?_⟩
  obtain ⟨d, n', hstands, hd, hends, hreach, hle⟩ := hall l c hc
  refine ⟨by omega, fun k hk => ?_, fun cl hcl => ?_, ?_⟩
  · obtain ⟨hshown, posted, -, hphase⟩ := hstands
    rw [hk] at hphase
    obtain ⟨-, -, rfl⟩ := hphase
    exact ⟨d.2, hshown, hreach⟩
  · exact stops_visited F href hrun hc hcl
  · rcases hstands.progress (joinable_probe cs) hd hends with hstep | ⟨i, m₀, hlost, rfl, s, -, hs, -⟩ | hended
    · exact Or.inl hstep
    · exact Or.inr (Or.inl ⟨hlost, s, hs⟩)
    · exact Or.inr (Or.inr hended)

theorem run_joined_twoStores :
    ∃ bound, ∀ l c, Joining.Run Script.move StoreImpl.take joined l (twoStores.net ℚ probeCommands) c →
      l ≤ bound ∧
      (∀ k, c.phase = .ready k → ∃ S, (∀ i, (c.server i).shown = (S i).shown) ∧
        Relation.ReflTransGen Script.Step ((Script.run ℚ probeCommands, twoStores.own), twoStores.cluster.stores) (k, S)) ∧
      (∀ cl ∈ stops c, ∃ c₀, Visited twoStores (run ℚ probeCommands twoStores).2 c₀ ∧ SameBases c₀ cl) ∧
      ((∃ c', Joining.Step Script.move StoreImpl.take joined c c') ∨
        (c.Lost 0 ∧ ∃ s, .test s ∈ probeCommands) ∨
        c.phase = .ready (.pure (), (run ℚ probeCommands twoStores).2.own) ∧ c.requests = [] ∧ c.replies = [] ∧
          ∀ i, (c.server i).shown = ((run ℚ probeCommands twoStores).2.cluster.stores i).shown) :=
  run_joined ℚ twoStores_fresh.refusals (by decide +kernel)

/-! ## A request that is not read -/

/-- The request that a command sends first. -/
def Command.sent : Command → Bytes
  | .put key value => (Request.log ⟨.put, key, value⟩).message
  | .get key => (Request.get key).message
  | .del key => (Request.log ⟨.delete, key, []⟩).message
  | .quit | .test _ | .other _ => []

theorem sender_rewriteMeta (it : Iterator) (c : ControlMeta) : Within Sender (rewriteMeta it c) := by
  refine (sender_entryOf it).bind fun e => ?_
  have hdelete : Within Sender (metaDelete e.1) := fun _ => rfl
  have hput : ∀ v, Within Sender (metaPut c.min_str v) := fun _ _ => rfl
  exact hdelete.bind fun _ => within_get.bind fun _ => (within_lift _).bind fun p => Within.bind
    (within_modify fun _ => rfl) fun _ => hput _

namespace Script

variable {B : Bytes → Prop} {F : Type} [Double F]

/-- A message that may go to store 0 is sent. -/
theorem meets_sent {fd len : ℕ} {Q : Unit → Own → Prop} (hB : B (o.sendBuff.bytes.take len))
    (hQ : fd ≠ 0 → ∀ b, Q () { o with receiveBuff := b }) : (exchange fd len).Meets (.upTo 0 B) Q o := by
  show (if fd = 0 then B _ else _)
  by_cases hfd : fd = 0
  · rwa [if_pos hfd]
  · rw [if_neg hfd]
    exact hQ hfd

/-- `reBalance` asks store 0 for its size first. -/
theorem meets_reBalance (hcount : 0 < o.storeNodeCount) (hB : B Request.size.message) {Q : Unit → Own → Prop} :
    (reBalance F).Meets (.upTo 0 B) Q o := by
  rintro n w hn
  cases hn
  obtain ⟨m, hm⟩ : ∃ m, o.storeNodeCount = m + 1 := ⟨o.storeNodeCount - 1, by omega⟩
  show ((List.range o.storeNodeCount).foldlM _ _ : Script ℤ).Meets _ _ _
  rw [hm, List.range_succ_eq_map, List.foldlM_cons]
  refine meets_assembled (assembleStrs_eq [SIZE]) fun len o' _ htake _ => ?_
  exact meets_sent (htake ▸ hB) fun hfd => absurd rfl hfd

/-- The rest of an update at another store. -/
theorem meets_finish {fd : ℕ} (hfd : fd ≠ 0) (it : Iterator) (c : ControlMeta) {Q : Unit → Own → Prop}
    (hQ : ∀ a o', o'.storeNodeCount = o.storeNodeCount → Q a o') :
    (do
      rewriteMeta it c
      request COMMIT_LOG fd
      let _ ← receivedStr).Meets (.upTo 0 B) Q o := by
  refine meets_act (sender_rewriteMeta it c) fun _ o₁ hcount₁ _ => ?_
  refine meets_assembled (assembleStrs_eq [COMMIT_LOG]) fun len o₂ _ _ hcount₂ => ?_
  show (if fd = 0 then B _ else _)
  rw [if_neg hfd]
  intro b
  refine meets_act sender_receivedStr fun _ o₃ hcount₃ _ => ?_
  exact hQ () o₃ (hcount₃.trans (hcount₂.trans hcount₁))

/-- A record is sent to its store. -/
theorem meets_logged {r : Log} {f : Iterator → ControlMeta → ℕ → Script Unit} (hB : B (Request.log r).message)
    {Q : Unit → Own → Prop} (hf : ∀ it c fd o', fd ≠ 0 → o'.storeNodeCount = o.storeNodeCount →
      (f it c fd).Meets (.upTo 0 B) Q o') :
    (do
      let len ← assembleLog r
      let it ← searchMeta r.key
      let controlMeta ← metaOf it
      let virtual_fd ← fdOf controlMeta
      exchange virtual_fd len
      f it controlMeta virtual_fd).Meets (.upTo 0 B) Q o := by
  refine meets_assembled (assembleLog_eq r) fun len o₁ _ htake hcount₁ => ?_
  refine meets_located fun it c fd o₂ hcount₂ hbuff₂ => ?_
  exact meets_sent (hbuff₂ ▸ htake.symm ▸ hB) fun hfd b => hf it c fd _ hfd (hcount₂.trans hcount₁)

theorem meets_putUpdate {key value : Bytes} (hB : B (Request.log ⟨.put, key, value⟩).message) {Q : Unit → Own → Prop}
    (hQ : ∀ a o', o'.storeNodeCount = o.storeNodeCount → Q a o') : (putUpdate key value).Meets (.upTo 0 B) Q o := by
  refine meets_logged (r := ⟨.put, key, value⟩) hB fun it c fd o₁ hfd hcount₁ => ?_
  refine meets_act sender_receivedStr fun ans o₂ hcount₂ _ => ?_
  show (if ans.1 = OK then _ else _ : Script Unit).Meets _ _ _
  split_ifs
  · exact meets_finish hfd it _ fun a o₃ hcount₃ => hQ a o₃ (hcount₃.trans (hcount₂.trans hcount₁))
  · exact hQ () o₂ (hcount₂.trans hcount₁)

theorem meets_delUpdate {key : Bytes} (hB : B (Request.log ⟨.delete, key, []⟩).message) {Q : Unit → Own → Prop}
    (hQ : ∀ a o', o'.storeNodeCount = o.storeNodeCount → Q a o') : (delUpdate key).Meets (.upTo 0 B) Q o := by
  refine meets_logged (r := ⟨.delete, key, []⟩) hB fun it c fd o₁ hfd hcount₁ => ?_
  refine meets_act sender_receivedStr fun ans o₂ hcount₂ _ => ?_
  show (if ans.1 = OK then _ else _ : Script Unit).Meets _ _ _
  split_ifs
  · refine meets_act (within_lift _) fun new o₃ hcount₃ _ => meets_act (within_lift _) fun _ o₄ hcount₄ _ => ?_
    exact meets_finish hfd it _ fun a o₅ hcount₅ =>
      hQ a o₅ (hcount₅.trans (hcount₄.trans (hcount₃.trans (hcount₂.trans hcount₁))))
  · exact hQ () o₂ (hcount₂.trans hcount₁)

theorem meets_getCommand {key : Bytes} (hB : B (Request.get key).message) {Q : Unit → Own → Prop}
    (hQ : ∀ a o', o'.storeNodeCount = o.storeNodeCount → Q a o') : (getCommand key).Meets (.upTo 0 B) Q o := by
  have hmsg : [GET, key].flatMap encStr = (Request.get key).message := by simp [Request.message]
  refine meets_located fun it c fd o₁ hcount₁ _ => ?_
  refine meets_assembled ((assembleStrs_eq _).trans (congrArg assemble hmsg)) fun len o₂ _ htake hcount₂ => ?_
  refine meets_sent (htake.symm ▸ hB) fun _ b => meets_act sender_receivedStr fun ans o₃ hcount₃ _ => ?_
  have hanswer : Within Sender (modify fun w => { w with answers := w.answers ++ [ans.1] } : M Unit) := fun _ => rfl
  exact meets_act hanswer fun a o₄ hcount₄ _ => hQ a o₄ (hcount₄.trans (hcount₃.trans (hcount₂.trans hcount₁)))

/-- A command that only asks may end without a message to store 0; one that writes does not. -/
theorem meets_exec {c : Command} (hquit : c ≠ .quit) (htest : ∀ s, c ≠ .test s) (hcount : 0 < o.storeNodeCount)
    (hB : B c.sent) (hsize : ¬c.Asks → B Request.size.message) :
    (exec F c).Meets (.upTo 0 B) (fun _ o' => c.Asks ∧ o'.storeNodeCount = o.storeNodeCount) o := by
  cases c with
  | quit => exact absurd rfl hquit
  | test s => exact absurd rfl (htest s)
  | other _ => exact ⟨trivial, rfl⟩
  | get key => exact meets_getCommand hB fun _ _ h => ⟨trivial, h⟩
  | put key value =>
      exact meets_putUpdate hB fun _ o' h => meets_reBalance (h.symm ▸ hcount) (hsize id)
  | del key =>
      show (if key = [] then _ else _ : Script Unit).Meets _ _ _
      split_ifs with hkey
      · exact ⟨hkey, rfl⟩
      · exact meets_delUpdate hB fun _ o' h => meets_reBalance (h.symm ▸ hcount) (hsize hkey)

theorem run_eq_exec {c : Command} (hc : c ≠ .quit) (cs : List Command) : run F (c :: cs) = (do exec F c; run F cs) := by
  cases c with
  | quit => exact absurd rfl hc
  | _ => rfl

/-- Commands of which one writes do not end without a message to store 0. -/
theorem meets_writing {cs rest : List Command} (hcs : ∀ c ∈ cs, c ≠ .quit ∧ ∀ s, c ≠ .test s) (hwrites : ∃ c ∈ cs, ¬c.Asks)
    (hB : ∀ c ∈ cs, B c.sent) (hsize : B Request.size.message) (hcount : 0 < o.storeNodeCount) :
    (run F (cs ++ rest)).Meets (.upTo 0 B) (fun _ _ => False) o := by
  induction cs generalizing o with
  | nil =>
      obtain ⟨c, hc, -⟩ := hwrites
      exact absurd hc List.not_mem_nil
  | cons c cs ih =>
      obtain ⟨hquit, htest⟩ := hcs c List.mem_cons_self
      rw [List.cons_append, run_eq_exec hquit]
      refine (meets_exec hquit htest hcount (hB c List.mem_cons_self) fun _ => hsize).mono fun _ o' ho' => ?_
      obtain ⟨hasks, hcount'⟩ := ho'
      refine ih (fun c' hc' => hcs c' (List.mem_cons_of_mem _ hc')) ?_ (fun c' hc' => hB c' (List.mem_cons_of_mem _ hc'))
        (hcount'.symm ▸ hcount)
      obtain ⟨c', hc', hwrite⟩ := hwrites
      rcases List.mem_cons.mp hc' with rfl | hc'
      · exact absurd hasks hwrite
      · exact ⟨c', hc', hwrite⟩

/-- The commands before others are carried out. -/
theorem reaches_rest {cs rest : List Command} (hcs : ∀ c ∈ cs, c ≠ .quit) (href : w.refusals = [])
    (hrun : (DistRocks.run F (cs ++ rest) w).1 = .ok ()) :
    ∃ w', w'.refusals = [] ∧ (DistRocks.run F rest w').1 = .ok () ∧ Relation.ReflTransGen Step
      ((run F (cs ++ rest), w.own), w.cluster.stores) ((run F rest, w'.own), w'.cluster.stores) := by
  induction cs generalizing w with
  | nil => exact ⟨w, href, hrun, .refl⟩
  | cons c cs ih =>
      have hquit := hcs c List.mem_cons_self
      rw [List.cons_append, run_eq F hquit] at hrun
      rcases hx : (do mark .command; c.exec F) w with ⟨e | a, w₁⟩
      · rw [bind_run_error hx] at hrun
        cases hrun
      · rw [bind_run hx] at hrun
        obtain ⟨href₁, -, hsteps⟩ := implements_mark .command (implements_exec F c) w a w₁ href hx
        obtain ⟨w', href', hrun', hrest⟩ := ih (fun c' hc' => hcs c' (List.mem_cons_of_mem _ hc')) href₁ hrun
        rw [List.cons_append, run_eq_exec hquit]
        have hfirst := Steps.bind (fun _ => run F (cs ++ rest)) (Steps.mono hsteps fun _ _ => trivial) trivial
        exact ⟨w', href', hrun', (Steps.direct hfirst).trans hrest⟩

/-- A `test` that is sent has a store to go to. -/
theorem count_of_test {s : Bytes} (hrun : (DistRocks.run F (.test s :: cs) w).1 = .ok ()) : 0 < w.storeNodeCount := by
  have hquit : Command.test s ≠ .quit := fun h => by cases h
  rw [run_eq F hquit] at hrun
  let w₁ : World := { w with history := ⟨.command, w.cluster, w.cluster⟩ :: w.history }
  have hexec : (do mark .command; (Command.test s).exec F) w = DistRocks.testCommand s w₁ := rfl
  rcases hx : DistRocks.testCommand s w₁ with ⟨e | a, w₂⟩
  · rw [bind_run_error (hexec.trans hx)] at hrun
    cases hrun
  · rcases hasm : DistRocks.assembleStrs [TEST, s] w₁ with ⟨e | len, w₃⟩
    · rw [DistRocks.testCommand, bind_run_error hasm] at hx
      cases hx
    · obtain ⟨-, -, hcount⟩ := assembled (assembleStrs_test s) hasm
      rw [DistRocks.testCommand, bind_run hasm, DistRocks.post, get_bind_run] at hx
      by_contra hzero
      have hzero' : ¬0 < w₃.storeNodeCount := fun h => hzero (hcount ▸ h)
      rw [if_neg hzero'] at hx
      cases hx

end Script

/-- A `test`, and behind it commands that only ask, up to one that writes: the control node may wait for ever for the
answer to a request that store 0 has received with the `test` and not read. -/
theorem run_hangs (F : Type) [Double F] {before behind rest : List Command} {s : Bytes} (href : w.refusals = [])
    (hrun : (run F (before ++ .test s :: (behind ++ rest)) w).1 = .ok ()) (hbefore : ∀ c ∈ before, c ≠ .quit)
    (hbehind : ∀ c ∈ behind, c ≠ .quit ∧ ∀ s', c ≠ .test s') (hwrites : ∃ c ∈ behind, ¬c.Asks)
    (hfit : ∀ c ∈ behind, (Request.test s).message.length + c.sent.length ≤ MAXLINE) :
    ∃ l c, Joining.Run Script.move StoreImpl.take joined l (w.net F (before ++ .test s :: (behind ++ rest))) c ∧
      c.Lost 0 ∧ ¬∃ c', Joining.Step Script.move StoreImpl.take joined c c' := by
  obtain ⟨w₁, href₁, hrun₁, hsteps⟩ := Script.reaches_rest hbefore href hrun
  have hcount := Script.count_of_test hrun₁
  let B : Bytes → Prop := fun msg => (Request.test s).message.length + msg.length ≤ MAXLINE
  have hsize : B Request.size.message := by
    obtain ⟨c, hc, hwrite⟩ := hwrites
    have hlong : Request.size.message.length ≤ c.sent.length := by
      cases c with
      | put _ _ | del _ =>
          simp [Command.sent, Request.message, LOG, SIZE, text]
          omega
      | _ => exact absurd trivial hwrite
    exact le_trans (Nat.add_le_add_left hlong _) (hfit c hc)
  have hlen : (Request.test s).message.length ≤ MAXLINE := le_trans (Nat.le_add_right _ _) hsize
  obtain ⟨b, c₁, c₂, hfirst, hsecond, hthird⟩ := Script.move_test F (o := w₁.own) hcount hlen (behind ++ rest)
  have hread := (w₁.cluster.stores 0).take_test hlen
  obtain ⟨-, -, hend⟩ := Script.implements_run F _ w₁ () _ href₁ (Prod.ext hrun₁ rfl)
  obtain ⟨n, hends⟩ := Direct.Ends.of_steps (Script.Steps.direct hend) rfl
  obtain ⟨d₁, n₁, -, hstep₁, hends₁⟩ := hends.next (by simp [hfirst])
  obtain rfl := hstep₁.unique (.tick hfirst)
  obtain ⟨d₂, n₂, -, hstep₂, hends₂⟩ := hends₁.next (by simp [hsecond])
  obtain rfl := hstep₂.unique (.tick hsecond)
  obtain ⟨d₃, n₃, -, hstep₃, hends₃⟩ := hends₂.next (by simp [hthird])
  obtain rfl := hstep₃.unique (.post hthird hread)
  -- the first request to store 0 behind the `test` fits beside it
  have hwriting : (Script.run F (behind ++ rest)).Meets (.upTo 0 B) (fun _ _ => False) { w₁.own with sendBuff := b } :=
    Script.meets_writing hbehind hwrites hfit hsize hcount
  obtain ⟨d₄, m, k, haside, hcall, hm⟩ := hends₃.first (fun _ hk => Script.meets_move hk) hwriting id
  have hboth : ((Request.test s).message ++ m).length ≤ MAXLINE := by rwa [List.length_append]
  have hjoin : joined (Request.test s).message m = some ((Request.test s).message ++ m) := if_pos hboth
  obtain ⟨l, c, hc, hlost⟩ := Joining.lost ((hsteps.tail hstep₁).tail hstep₂) hthird haside hcall hjoin
    ((w₁.cluster.stores 0).take_probe hboth)
  exact ⟨l, c, hc, hlost, hlost.stuck⟩

theorem run_hangs_twoStores :
    ∃ l c, Joining.Run Script.move StoreImpl.take joined l (twoStores.net ℚ probedCommands) c ∧
      c.Lost 0 ∧ ¬∃ c', Joining.Step Script.move StoreImpl.take joined c c' := by
  have hcommands : probedCommands = [] ++ .test (text "hello") :: ([.put (text "a") (text "x")] ++ []) := rfl
  rw [hcommands]
  exact run_hangs ℚ twoStores_fresh.refusals (by decide +kernel) (by decide)
    (fun c hc => List.mem_singleton.mp hc ▸ ⟨by decide, fun _ h => by cases h⟩) ⟨_, List.mem_cons_self, id⟩ (by decide)

end DistRocks
