import DistRocks.Base.Frames
import DistRocks.Cluster.Rounds
import DistRocks.Store.Votes

/-!
# What only reads

* `SameBases` : the databases of two clusters are the same; `Unwritten w w'` : they were so at every event from one world
  to the other, and no record was sent;
* `StoreImpl.execute_reads` : a store that only answers leaves its databases alone;
* `within_call`, `within_post` : so does a message that only asks, in every world and whatever comes of it;
* `run_reads` : `get`, `test`, unknown words and a `del` without a key never write.
-/

namespace DistRocks

open ConstValues Proc

/-- The databases are the same in both. -/
structure SameBases (c c' : Cluster) : Prop where
  data : ∀ j, (c'.stores j).storeData = (c.stores j).storeData
  log : ∀ j, (c'.stores j).storeLog = (c.stores j).storeLog
  metaDb : c'.metaDb = c.metaDb

/-- From one world to the other no record is sent, and at every event the databases are those of the first. -/
def Unwritten (w w' : World) : Prop :=
  SameBases w.cluster w'.cluster ∧
    ∃ new, w'.history = new ++ w.history ∧ ∀ x ∈ new, ¬x.act.Logs ∧ SameBases w.cluster x.after

variable {w w' : World} {st st' : StoreImpl} {reply : Option Bytes} {q : Request} {fd len : ℕ}

theorem SameBases.refl (c : Cluster) : SameBases c c := ⟨fun _ => rfl, fun _ => rfl, rfl⟩

theorem SameBases.trans {c c₁ c₂ : Cluster} (h : SameBases c c₁) (h' : SameBases c₁ c₂) : SameBases c c₂ :=
  ⟨fun j => (h'.data j).trans (h.data j), fun j => (h'.log j).trans (h.log j), h'.metaDb.trans h.metaDb⟩

/-- A store in the place of one with the same databases. -/
theorem SameBases.update {c : Cluster} (hdata : st.storeData = (c.stores fd).storeData)
    (hlog : st.storeLog = (c.stores fd).storeLog) :
    SameBases c { c with stores := Function.update c.stores fd st } := by
  have hstore : ∀ j, (Function.update c.stores fd st j).storeData = (c.stores j).storeData ∧
      (Function.update c.stores fd st j).storeLog = (c.stores j).storeLog := fun j => by
    by_cases hj : j = fd
    · subst hj
      simp [hdata, hlog]
    · simp [hj]
  exact ⟨fun j => (hstore j).1, fun j => (hstore j).2, rfl⟩

namespace Unwritten

/-- The buffers and the answers do not matter. -/
theorem of_eq (hcluster : w'.cluster = w.cluster) (hhist : w'.history = w.history) : Unwritten w w' :=
  ⟨hcluster ▸ .refl _, [], hhist, fun _ hx => absurd hx List.not_mem_nil⟩

theorem event {a : Act} (ha : ¬a.Logs) (h : SameBases w.cluster w'.cluster)
    (hhist : w'.history = ⟨a, w.cluster, w'.cluster⟩ :: w.history) : Unwritten w w' := by
  refine ⟨h, [⟨a, w.cluster, w'.cluster⟩], hhist, fun x hx => ?_⟩
  obtain rfl := List.mem_singleton.mp hx
  exact ⟨ha, h⟩

instance refl : Std.Refl Unwritten := ⟨fun _ => .of_eq rfl rfl⟩

instance trans : IsTrans World Unwritten where
  trans := by
    rintro w₀ w₁ w₂ ⟨h, new, hnew, hall⟩ ⟨h', new', hnew', hall'⟩
    refine ⟨h.trans h', new' ++ new, by rw [hnew', hnew, List.append_assoc], fun x hx => ?_⟩
    rcases List.mem_append.mp hx with hx | hx
    · exact ⟨(hall' x hx).1, h.trans (hall' x hx).2⟩
    · exact hall x hx

end Unwritten

/-! ## Messages that only ask -/

theorem StoreImpl.execute_reads (hq : q.Reads) (h : st.execute q = .ok (st', reply)) :
    st'.storeData = st.storeData ∧ st'.storeLog = st.storeLog := by
  cases hv : st.storeData.answer q with
  | none =>
      rw [execute_of_answer_none st hv] at h
      obtain ⟨rfl, -⟩ := Prod.mk.inj (Except.ok.inj h)
      exact ⟨rfl, rfl⟩
  | some v =>
      have heffect : st.effect q = .ok st := by
        cases q with
        | log _ | commitLog | delLog | quit | other _ => exact hq.elim
        | _ => rfl
      rw [execute_eq st hv, heffect, ok_bind] at h
      obtain ⟨hdata, hlog, -⟩ := sendReply_eq_ok h
      exact ⟨hdata, hlog⟩

theorem Request.Reads.ne_other (hq : q.Reads) : ∀ c, q ≠ .other c := by
  rintro c rfl
  exact hq

theorem Request.Reads.asRead (hq : q.Reads) : q.asRead.Reads := by
  cases q with
  | log _ | commitLog | delLog | quit | other _ => exact hq.elim
  | _ => trivial

theorem StoreImpl.serve_reads {q' : Request} (hq : q.Reads) (hlen : q.message.length ≤ MAXLINE)
    (h : st.serve q.message = .ok (q', st', reply)) : st'.storeData = st.storeData ∧ st'.storeLog = st.storeLog := by
  rw [serve_message st hlen hq.ne_other] at h
  obtain ⟨⟨st₁, reply₁⟩, hexec, hout⟩ := bind_eq_ok h
  obtain ⟨-, rfl, rfl⟩ : q.asRead = q' ∧ st₁ = st' ∧ reply₁ = reply := by simpa using hout
  obtain ⟨hdata, hlog⟩ := execute_reads hq.asRead hexec
  exact ⟨hdata, hlog⟩

/-- The event of a message that only asks. -/
theorem Request.Reads.not_exchange_logs (hq : q.Reads) (hlen : q.message.length ≤ MAXLINE) :
    ¬(Act.exchange fd q.message).Logs := by
  rintro ⟨j, r, hr⟩
  rw [Step.logged_read (Sim.decode_message hq.ne_other hlen) hq.asRead] at hr
  cases hr

theorem Act.not_post_logs {msg : Bytes} : ¬(Act.post fd msg).Logs := by
  rintro ⟨j, r, hr⟩
  cases hr

theorem unwritten_exchange (hq : q.Reads) (hlen : q.message.length ≤ MAXLINE)
    (hmsg : w.sendBuff.bytes.take len = q.message) : Unwritten w (exchange fd len w).2 := by
  have hact : ¬(Act.exchange fd q.message).Logs := hq.not_exchange_logs hlen
  by_cases hfd : fd < w.storeNodeCount
  · rw [exchange, get_bind_run, if_pos hfd, hmsg]
    cases hserve : (w.cluster.stores fd).serve q.message with
    | error e => exact refl_of Unwritten w
    | ok a =>
        obtain ⟨q', st, reply⟩ := a
        obtain ⟨hdata, hlog⟩ := StoreImpl.serve_reads hq hlen hserve
        have hsame : ∀ recorded : Bool, SameBases w.cluster { w.cluster with
            stores := Function.update w.cluster.stores fd (if recorded then st else w.cluster.stores fd) } := by
          rintro (_ | _)
          · exact .update rfl rfl
          · exact .update hdata hlog
        rw [lift_ok_bind_run]
        generalize w.refusals.head? = refusal
        rcases refusal with _ | _ | r
        · cases reply with
          | none => exact refl_of Unwritten w
          | some reply => exact .event hact (hsame true) rfl
        · cases reply with
          | none => exact refl_of Unwritten w
          | some reply => exact .event hact (hsame true) rfl
        · exact .event hact (hsame r.recorded) rfl
  · rw [exchange, get_bind_run, if_neg hfd]
    exact refl_of Unwritten w

theorem unwritten_post (hq : q.Reads) (hlen : q.message.length ≤ MAXLINE)
    (hmsg : w.sendBuff.bytes.take len = q.message) : Unwritten w (post fd len w).2 := by
  have hact : ¬(Act.post fd q.message).Logs := Act.not_post_logs
  by_cases hfd : fd < w.storeNodeCount
  · rw [post, get_bind_run, if_pos hfd, hmsg]
    cases hserve : (w.cluster.stores fd).serve q.message with
    | error e => exact refl_of Unwritten w
    | ok a =>
        obtain ⟨q', st, reply⟩ := a
        obtain ⟨hdata, hlog⟩ := StoreImpl.serve_reads hq hlen hserve
        exact .event hact (.update hdata hlog) rfl
  · rw [post, get_bind_run, if_neg hfd]
    exact refl_of Unwritten w

/-- A message that is assembled and then sent. -/
theorem within_assemble {send : ℕ → M Unit}
    (hsend : ∀ w : World, q.message.length ≤ MAXLINE → w.sendBuff.bytes.take q.message.length = q.message →
      Unwritten w (send q.message.length w).2) : Within Unwritten (assemble q.message >>= send) := by
  intro w
  rcases w.sendBuff.put_cases q.message with ⟨hlen, b, hb, -⟩ | ⟨-, he⟩
  · have hrun : assemble q.message w = (.ok q.message.length, { w with sendBuff := b }) := by
      rw [assemble, get_bind_run, hb, lift_ok_bind_run, modify_bind_run, pure_run]
    rw [bind_run hrun]
    have hstep : Unwritten w { w with sendBuff := b } := .of_eq rfl rfl
    exact trans_of Unwritten hstep (hsend _ hlen (Buff.take_put hb))
  · have hrun : assemble q.message w = (.error .overrun, w) := by
      rw [assemble, get_bind_run, he, lift_error_bind_run]
    rw [bind_run_error hrun]
    exact refl_of Unwritten w

theorem within_call (hq : q.Reads) : Within Unwritten (call fd q.message) :=
  within_assemble fun _ hlen hmsg => unwritten_exchange hq hlen hmsg

/-! ## The functions that only ask -/

theorem within_mark (a : Act) (ha : a.IsMark) : Within Unwritten (mark a) := fun w =>
  .event (fun ⟨j, r, hr⟩ => by rw [Act.logged_of_isMark ha] at hr; cases hr) (.refl w.cluster) rfl

theorem within_receivedStr : Within Unwritten receivedStr := within_get.bind fun _ => within_lift _

theorem within_receivedInt : Within Unwritten receivedInt :=
  within_get.bind fun _ => (within_lift _).bind fun _ => within_pure _

theorem within_getSize : Within Unwritten (getSize fd) := by
  rw [getSize_eq]
  exact (within_call (q := .size) trivial).bind fun _ => within_receivedInt

theorem within_getStoreLessOrEqualOne : Within Unwritten (getStoreLessOrEqualOne fd) := by
  rw [getStoreLessOrEqualOne_eq]
  exact (within_call (q := .lessOrEqualOne) trivial).bind fun _ => within_receivedInt.bind fun _ => within_pure _

theorem within_searchMeta (key : Bytes) : Within Unwritten (searchMeta key) := within_get.bind fun _ => within_pure _

theorem within_metaOf (it : Iterator) : Within Unwritten (metaOf it) := by
  have hentry : Within Unwritten (entryOf it) := by
    rw [entryOf]
    cases it.current with
    | none => exact within_fail _
    | some e => exact within_pure e
  exact hentry.bind fun _ => within_lift _

theorem within_fdOf (c : ControlMeta) : Within Unwritten (fdOf c) := within_ite (within_pure _) (within_fail _)

theorem within_showMeta : Within Unwritten showMeta := by
  refine within_get.bind fun w => (within_forEachWhile (fun e => ?_) _).bind fun _ => within_pure ()
  exact (within_lift _).bind fun c => (within_fdOf c).bind fun fd => within_getSize.bind fun _ => within_pure true

theorem within_getCommand (key : Bytes) : Within Unwritten (getCommand key) := by
  have hmsg : [GET, key].flatMap encStr = (Request.get key).message := by simp [Request.message]
  refine (within_searchMeta key).bind fun it => (within_metaOf it).bind fun c => (within_fdOf c).bind fun fd => ?_
  rw [assembleStrs_eq, hmsg, ← bind_assoc]
  refine (within_call (q := .get key) trivial).bind fun _ => within_receivedStr.bind fun ans => ?_
  exact within_modify fun _ => .of_eq rfl rfl

theorem within_testCommand (test_string : Bytes) : Within Unwritten (testCommand test_string) := by
  have hmsg : [TEST, test_string].flatMap encStr = (Request.test test_string).message := by simp [Request.message]
  rw [testCommand, assembleStrs_eq, hmsg]
  exact within_assemble fun _ hlen htake => unwritten_post (q := .test test_string) trivial hlen htake

section Balance
variable (F : Type) [Double F]

theorem within_notTooMuch (total_size : ℤ) (perfect : F) : Within Unwritten (notTooMuch F fd total_size perfect) :=
  within_getSize.bind fun _ => within_ite (within_pure true) within_getStoreLessOrEqualOne

theorem within_totalSize : Within Unwritten totalSize :=
  within_get.bind fun _ => within_foldlM (fun _ _ => within_getSize.bind fun _ => within_pure _) _ _

/-! ## The console -/

/-- A command that is not to write. -/
def Command.Asks : Command → Prop
  | .put _ _ => False
  | .del key => key = []
  | _ => True

instance Command.decidableAsks : DecidablePred Command.Asks := fun c => by
  cases c <;> unfold Command.Asks <;> infer_instance

theorem within_exec {c : Command} (hc : c.Asks) : Within Unwritten (c.exec F) := by
  cases c with
  | quit | other _ => exact within_pure ()
  | test test_string => exact within_testCommand test_string
  | put key value => exact hc.elim
  | get key => exact within_getCommand key
  | del key =>
      rw [Command.exec, if_pos (show key = [] from hc)]
      exact within_pure ()

/-- Up to a `quit` only commands that ask: in every world, whatever its stores, its metadata and the answers are, and
whether the run ends or not, no record is sent and no database is ever changed. -/
theorem run_reads {cs : List Command} (hcs : ∀ c ∈ cs.takeWhile (· ≠ .quit), c.Asks) (w : World) :
    Unwritten w (run F cs w).2 := by
  suffices h : Within Unwritten (run F cs) from h w
  induction cs with
  | nil => exact within_mark .command trivial
  | cons c cs ih =>
      by_cases hquit : c = .quit
      · subst hquit
        exact within_mark .command trivial
      · rw [List.takeWhile_cons_of_pos (by simpa using hquit)] at hcs
        have hrest := ih fun c' hc' => hcs c' (List.mem_cons_of_mem _ hc')
        have hrun : run F (c :: cs) = (do mark .command; c.exec F; run F cs) := by
          cases c with
          | quit => exact absurd rfl hquit
          | _ => rfl
        rw [hrun]
        exact (within_mark .command trivial).bind fun _ => (within_exec F (hcs c List.mem_cons_self)).bind fun _ => hrest

end Balance

/-- Questions in front of a `put` that is not read any more. -/
def askingCommands : List Command :=
  [.get (text "a"), .test (text "hi"), .del [], .other (text "show"), .quit, .put (text "a") (text "b")]

theorem run_reads_askingCommands : Unwritten twoStores (run ℚ askingCommands twoStores).2 := run_reads ℚ (by decide) _

end DistRocks
