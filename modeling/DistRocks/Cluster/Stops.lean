import DistRocks.Base.Joining
import DistRocks.Cluster.Flight
import DistRocks.Cluster.Reading

/-!
# Stops in any order of steps

* `joined` : two messages of a channel in what one `recv` returns;
* `StoreImpl.take_of_shown` : what a store answers to a request does not depend on what lay in its receive buffer;
  `joinable_probe` : behind a `test` nothing is read;
* `stops` : what the databases of the cluster are like where all processes stop, with messages in flight;
* `Script.StepIn.of_reached` : where the direct run is, its clusters are those of events;
* `run_stops` : so are those of every stop, but for the buffers, and a restart finds the same.
-/

namespace DistRocks

open ConstValues Proc Network

variable {α : Type} {w w' : World} {c : Net ℕ Bytes StoreImpl (Script Unit × Own)} {cl : Cluster}

/-- What `recv` returns of two messages, one behind the other: both, if they fit. -/
def joined (m m' : Bytes) : Option Bytes := if (m ++ m').length ≤ MAXLINE then some (m ++ m') else none

/-! ## Stores -/

namespace StoreImpl

variable {st st' t : StoreImpl} {q : Request} {r : Option Bytes}

/-- A store but for its receive buffer. -/
def shown (st : StoreImpl) : StoreData × StoreLog × Buff := (st.storeData, st.storeLog, st.sendBuff)

/-- No branch reads the receive buffer. -/
theorem execute_receiveBuff (st : StoreImpl) (b : Buff) (q : Request) :
    { st with receiveBuff := b }.execute q = (st.execute q).map fun p => ({ p.1 with receiveBuff := b }, p.2) := by
  let st₁ : StoreImpl := { st with receiveBuff := b }
  have hdata : st₁.storeData.answer q = st.storeData.answer q := rfl
  cases hv : st.storeData.answer q with
  | none => rw [execute_of_answer_none st₁ hv, execute_of_answer_none st hv]; rfl
  | some v =>
      have heffect : st₁.effect q = (st.effect q).map fun st => { st with receiveBuff := b } := by
        cases q with
        | log r =>
            rw [effect, effect]
            by_cases hkind : r.kind = .error
            · rw [if_pos hkind, if_pos hkind]
              rfl
            · rw [if_neg hkind, if_neg hkind]
              show (st.storeLog.buff.put _ >>= _) = _
              cases st.storeLog.buff.put (encLog r.recorded) with
              | error e => rfl
              | ok c =>
                  rw [ok_bind, ok_bind, show st₁.storeData = st.storeData from rfl]
                  split_ifs <;> rfl
        | commitLog =>
            rw [effect, effect]
            show (st.storeLog.getLog >>= _) = _
            cases st.storeLog.getLog with
            | error e => rfl
            | ok r =>
                show Except.ok (st₁.applied r) = Except.ok { st.applied r with receiveBuff := b }
                rw [applied, applied]
                cases r.kind <;> rfl
        | _ => rfl
      rw [execute_eq st₁ hv, execute_eq st hv, heffect]
      cases st.effect q with
      | error e => rfl
      | ok st₂ =>
          show sendReply { st₂ with receiveBuff := b } v.message = _
          rw [sendReply, ok_bind, sendReply]
          show (st₂.sendBuff.put v.message >>= _) = _
          cases st₂.sendBuff.put v.message <;> rfl

/-- The answer to a request, and what becomes of the store. -/
theorem take_of_shown (hother : ∀ c, q ≠ .other c) (hlen : q.message.length ≤ MAXLINE) (h : st.shown = st'.shown)
    (ht : st'.take q.message = some (t, r)) : ∃ t', st.take q.message = some (t', r) ∧ t'.shown = t.shown := by
  have hreceived : st.received q.message =
      { st'.received q.message with receiveBuff := st.receiveBuff.receive q.message } := by
    obtain ⟨data, log, b, b'⟩ := st
    obtain ⟨data', log', c, c'⟩ := st'
    cases h
    rfl
  rw [take, serve_message st' hlen hother] at ht
  rw [take, serve_message st hlen hother, hreceived, execute_receiveBuff]
  cases hx : (st'.received q.message).execute q.asRead with
  | error e =>
      rw [hx] at ht
      cases ht
  | ok p =>
      rw [hx] at ht
      simp only [ok_bind, Except.map] at ht ⊢
      split_ifs at ht ⊢
      cases ht
      exact ⟨_, rfl, rfl⟩

/-- What comes behind a request is not read. -/
theorem serve_append {rest : Bytes} (hother : ∀ c, q ≠ .other c) (hlen : (q.message ++ rest).length ≤ MAXLINE) :
    st.serve (q.message ++ rest) =
      ((st.received (q.message ++ rest)).execute q.asRead >>= fun p => .ok (q.asRead, p)) := by
  have hfront : q.message.length ≤ MAXLINE := by
    rw [List.length_append] at hlen
    omega
  rw [serve]
  simp only [Buff.bytes_receive hlen, List.append_assoc, decodeRequest_message _ hfront hother, ok_bind]
  rfl

theorem take_probe (st : StoreImpl) {s rest : Bytes} (hlen : ((Request.test s).message ++ rest).length ≤ MAXLINE) :
    st.take ((Request.test s).message ++ rest) = some (st.received ((Request.test s).message ++ rest), none) := by
  rw [take, serve_append (fun c hc => by cases hc) hlen]
  rfl

end StoreImpl

/-! ## Any order of steps, and any messages received as one -/

/-- A `test` of the commands, with whatever has been joined to it. -/
def Script.Probe (cs : List Command) (fd : ℕ) (msg : Bytes) : Prop :=
  fd = 0 ∧ ∃ s rest, .test s ∈ cs ∧ msg = (Request.test s).message ++ rest ∧ msg.length ≤ MAXLINE

/-- Where the control node is when a `test` may have more behind it. -/
def Script.RunsJoined (cs : List Command) (c : Script Unit × Own) : Prop :=
  c.1.Meets (.sends (Script.Probe cs) Script.Whole) (fun _ _ => True) c.2

theorem Script.Runs.joined {c : Script Unit × Own} (h : Script.Runs cs c) : Script.RunsJoined cs c :=
  h.imp id fun ⟨⟨h0, s, hs, hmsg, hlen⟩, hX⟩ => ⟨⟨h0, s, [], hs, by rw [hmsg, List.append_nil], hlen⟩, hX⟩

theorem joinable_probe (cs : List Command) : Joinable Script.move StoreImpl.take joined (Script.Probe cs) Script.Whole
    (Script.RunsJoined cs) StoreImpl.shown where
  sends := fun _ hc => Script.meets_move hc
  joined := by
    rintro i m m' x ⟨h0, s, rest, hs, rfl, -⟩ hjoin
    rw [DistRocks.joined] at hjoin
    split_ifs at hjoin with hlen
    cases hjoin
    exact ⟨h0, s, rest ++ m', hs, List.append_assoc .., hlen⟩
  read := by
    rintro i m st ⟨-, s, rest, -, rfl, hlen⟩
    exact ⟨_, st.take_probe hlen, rfl⟩
  answered := by
    rintro i m st st' t r ⟨q, hother, rfl, hlen⟩ hshown ht
    exact StoreImpl.take_of_shown hother hlen hshown ht

/-! ## Stops -/

/-- The databases where all processes stop: a store between two of its requests, the control node before its next step or
inside of it. -/
def stops (c : Net ℕ Bytes StoreImpl (Script Unit × Own)) : List Cluster :=
  match c.phase with
  | .ready (p, o) => (p.metas o).map fun m => ⟨c.server, m⟩
  | .waiting _ k => [⟨c.server, (k []).2.metaDb⟩]

/-- A run of the process stays in `X` up to its end. -/
theorem Script.StepIn.of_reached {X : Cluster → Prop} {d d' e : (Script α × Own) × (ℕ → StoreImpl)}
    (h : Relation.ReflTransGen (Script.StepIn X) d e) (he : Script.move e.1 = .halt) (hlast : ∀ c ∈ Script.clusters e, X c)
    (hd : Relation.ReflTransGen Script.Step d d') : ∀ c ∈ Script.clusters d', X c := by
  induction h using Relation.ReflTransGen.head_induction_on with
  | refl =>
      rcases hd.cases_head with rfl | ⟨d₁, hstep, -⟩
      · exact hlast
      · cases hstep with
        | tick hk | post hk _ | call hk _ => rw [he] at hk; cases hk
  | head hstep _ ih =>
      rcases hd.cases_head with rfl | ⟨d₁, hstep', hrest⟩
      · exact hstep.2
      · obtain rfl := hstep.1.unique hstep'
        exact ih hrest

theorem SameBases.reopen {c c' : Cluster} (h : SameBases c c') : c'.reopen = c.reopen := by
  simp only [Cluster.reopen, h.data, h.log, h.metaDb]

/-- What the control node holds while it waits is what it holds before and after. -/
theorem Script.metaDb_waiting {p : Script α × Own} {i : ℕ} {m : Bytes} {k : Bytes → Script α × Own}
    (hcall : Script.move p = .call i m k) :
    (k []).2.metaDb ∈ p.1.metas p.2 ∧ ∀ r, (k []).2.metaDb ∈ (k r).1.metas (k r).2 := by
  have hnext : p.1.next p.2 = .inr (.call i m k) := by
    rw [Script.move] at hcall
    cases hn : p.1.next p.2 with
    | inl a =>
        rw [hn] at hcall
        cases hcall
    | inr move =>
        rw [hn] at hcall
        exact congrArg Sum.inr hcall
  have hmeta := Script.metaDb_of_call hnext
  refine ⟨hmeta [] ▸ p.1.metaDb_mem_metas p.2, fun r => ?_⟩
  rw [hmeta, ← hmeta r]
  exact (k r).1.metaDb_mem_metas (k r).2

/-- The control node is at a point of the run with one exchange at a time, with the databases as they are there. -/
theorem sameBases_of_stands {c : Net ℕ Bytes StoreImpl (Script Unit × Own)} {d : (Script Unit × Own) × (ℕ → StoreImpl)}
    {P : ℕ → Bytes → Prop} {cl : Cluster} (h : Joining.Stands Script.move P StoreImpl.shown c d) (hcl : cl ∈ stops c) :
    ∃ c₀ ∈ Script.clusters d, SameBases c₀ cl := by
  obtain ⟨phase, S, requests, replies⟩ := c
  obtain ⟨hshown, posted, -, hphase⟩ := h
  have hsame : ∀ m : DBHandle, SameBases ⟨d.2, m⟩ ⟨S, m⟩ := fun m =>
    ⟨fun j => congrArg Prod.fst (hshown j), fun j => congrArg (fun x => x.2.1) (hshown j), rfl⟩
  suffices hm : ∃ m, cl = ⟨S, m⟩ ∧ m ∈ d.1.1.metas d.1.2 by
    obtain ⟨m, rfl, hm⟩ := hm
    exact ⟨_, List.mem_map_of_mem hm, hsame m⟩
  cases phase with
  | ready k =>
      obtain ⟨-, -, rfl⟩ := hphase
      obtain ⟨m, hm, rfl⟩ := List.mem_map.mp hcl
      exact ⟨m, rfl, hm⟩
  | waiting i k =>
      obtain rfl := List.mem_singleton.mp hcl
      obtain ⟨k', m, hcall, hat⟩ := hphase
      obtain ⟨hbefore, hafter⟩ := Script.metaDb_waiting hcall
      refine ⟨(k []).2.metaDb, rfl, ?_⟩
      rcases hat with ⟨hd, -⟩ | ⟨r, hd, -⟩ | ⟨hd, -⟩
      · rw [hd]
        exact hbefore
      · rw [hd]
        exact hafter r
      · rw [hd]
        exact hbefore

/-- In any order of steps, and whichever messages are received as one, the control node stands at a point of the run with one
exchange at a time. -/
theorem joined_stands (F : Type) [Double F] {cs : List Command} (href : w.refusals = []) (hrun : (run F cs w).1 = .ok ()) :
    ∃ n, ∀ l c, Joining.Run Script.move StoreImpl.take joined l (w.net F cs) c → ∃ d n',
      Joining.Stands Script.move (Script.Probe cs) StoreImpl.shown c d ∧ Script.RunsJoined cs d.1 ∧
      Direct.Ends Script.move StoreImpl.take n' d ((.pure (), (run F cs w).2.own), (run F cs w).2.cluster.stores) ∧
      Relation.ReflTransGen Script.Step ((Script.run F cs, w.own), w.cluster.stores) d ∧ l + Joining.left n' c ≤ 4 * n + 2 := by
  obtain ⟨-, -, hsteps⟩ := Script.implements_run F cs w () (run F cs w).2 href (Prod.ext hrun rfl)
  obtain ⟨n, hends⟩ := Direct.Ends.of_steps (Script.Steps.direct hsteps) rfl
  have hruns : Script.Runs cs (Script.run F cs, w.own) := Script.meets_run F (fun _ hc => hc) fun _ _ => trivial
  exact ⟨n, fun l c hc => hc.stands (joinable_probe cs) hruns.joined hends⟩

/-- The databases of a stop are those of an event. -/
theorem stops_visited (F : Type) [Double F] {cs : List Command} {l : ℕ} (href : w.refusals = [])
    (hrun : (run F cs w).1 = .ok ()) (h : Joining.Run Script.move StoreImpl.take joined l (w.net F cs) c) (hcl : cl ∈ stops c) :
    ∃ c₀, Visited w (run F cs w).2 c₀ ∧ SameBases c₀ cl := by
  obtain ⟨-, hend, hsteps⟩ := Script.implements_run F cs w () (run F cs w).2 href (Prod.ext hrun rfl)
  obtain ⟨n, hall⟩ := joined_stands F href hrun
  obtain ⟨d, n', hstands, -, -, hreach, -⟩ := hall l c h
  have hlast : ∀ c ∈ Script.clusters (((.pure (), (run F cs w).2.own) : Script Unit × Own), (run F cs w).2.cluster.stores),
      Visited w (run F cs w).2 c := fun c hc => List.mem_singleton.mp hc ▸ hend
  obtain ⟨c₀, hc₀, hsame⟩ := sameBases_of_stands hstands hcl
  exact ⟨c₀, Script.StepIn.of_reached hsteps rfl hlast hreach c₀ hc₀, hsame⟩

/-- In whatever order the control node and the stores take their steps, and wherever all of them stop, the databases are
those of the run with one exchange at a time at its start or behind one of its events; and so a restart finds the same. -/
theorem run_stops (F : Type) [Double F] {cs : List Command} {l : ℕ} (href : w.refusals = [])
    (hrun : (run F cs w).1 = .ok ()) (h : Net.Run Script.move StoreImpl.take l (w.net F cs) c) (hcl : cl ∈ stops c) :
    ∃ c₀, Visited w (run F cs w).2 c₀ ∧ SameBases c₀ cl ∧ cl.reopen = c₀.reopen := by
  obtain ⟨c₀, hvisited, hsame⟩ := stops_visited F href hrun h.joining hcl
  exact ⟨c₀, hvisited, hsame, hsame.reopen⟩

/-- A `test` in front of a `put`. -/
def probedCommands : List Command := [.test (text "hello"), .put (text "a") (text "x")]

/-- The steps of a `test` in front of other commands. -/
theorem Script.move_test (F : Type) [Double F] {o : Own} {s : Bytes} (hcount : 0 < o.storeNodeCount)
    (hlen : (Request.test s).message.length ≤ MAXLINE) (cs : List Command) :
    ∃ b c₁ c₂, Script.move (Script.run F (.test s :: cs), o) = .tick c₁ ∧ Script.move c₁ = .tick c₂ ∧
      Script.move c₂ = .post 0 (Request.test s).message
        (.bind (.pure ()) fun _ => Script.run F cs, { o with sendBuff := b }) := by
  obtain ⟨b, hasm, htake⟩ := assemble_eq (w := o.world) hlen
  have hstrs : DistRocks.assembleStrs [TEST, s] o.world =
      (.ok (Request.test s).message.length, { o.world with sendBuff := b }) := by
    rw [Script.assembleStrs_test, hasm]
  let o' : Own := { o with sendBuff := b }
  let rest : Unit → Script Unit := fun _ => Script.run F cs
  refine ⟨b, (.bind (.bind (.pure (Request.test s).message.length) fun len => .post 0 len) rest, o'),
    (.bind (.post 0 (Request.test s).message.length) rest, o'), ?_, rfl, ?_⟩
  · show Script.move (.bind (.bind (.act (DistRocks.assembleStrs [TEST, s]) _) _) rest, o) = _
    simp only [Script.move, Script.next, hstrs]
    rfl
  · have hcount' : 0 < o'.storeNodeCount := hcount
    have htake' : o'.sendBuff.bytes.take (Request.test s).message.length = (Request.test s).message := htake
    simp only [Script.move, Script.next, if_pos hcount', htake']
    rfl

/-- A `test` that is sent and not yet read, in front of commands that have not begun. -/
theorem run_test_posted (F : Type) [Double F] {s : Bytes} (hcount : 0 < w.storeNodeCount)
    (hlen : (Request.test s).message.length ≤ MAXLINE) (cs : List Command) :
    ∃ c, Net.Run Script.move StoreImpl.take 3 (w.net F (.test s :: cs)) c ∧
      c.requests = [(0, (Request.test s).message)] ∧ w.cluster ∈ stops c := by
  obtain ⟨b, c₁, c₂, hfirst, hsecond, hthird⟩ := Script.move_test F (o := w.own) hcount hlen cs
  exact ⟨_, .snoc (.snoc (.snoc .nil (.tick hfirst)) (.tick hsecond)) (.post hthird), rfl, List.mem_singleton_self _⟩

theorem run_stops_twoStores :
    ∃ c₀, Visited twoStores (run ℚ probedCommands twoStores).2 c₀ ∧ SameBases c₀ twoStores.cluster ∧
      twoStores.cluster.reopen = c₀.reopen := by
  have hcount : 0 < twoStores.storeNodeCount := twoStores_fresh.count.symm ▸ twoStores_fresh.pos
  obtain ⟨c, hc, -, hcl⟩ := run_test_posted ℚ (s := text "hello") hcount (by decide) [.put (text "a") (text "x")]
  exact run_stops ℚ twoStores_fresh.refusals (by decide +kernel) hc hcl

end DistRocks
