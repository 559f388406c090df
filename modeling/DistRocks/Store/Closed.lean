import DistRocks.Store.Bounds

/-!
# The end of a connection

When the peer is gone, every `recv` returns at once with nothing, and `StoreImpl.run` takes what lies in its buffer.

* `serve_nothing` : the last request is executed again;
* `Quits` : a `quit` request lies in the buffer after one of the received messages;
* `run_append` : a run with more to receive;
* `closed_iff` : nothing is executed after the end of the connection exactly if the loop quit before it;
* `run_again` : a pending record is committed by a `COMMIT_LOG` that was sent once.
-/

namespace DistRocks

open ConstValues

@[simp] theorem Buff.receive_nil (b : Buff) : b.receive [] = b := by
  simp [receive]

/-- After one of the messages a `quit` lies at the front of the receive buffer. -/
def Quits : Buff → List Bytes → Prop
  | _, [] => False
  | b, msg :: rest => decodeRequest (b.receive msg).bytes = .ok .quit ∨ Quits (b.receive msg) rest

namespace StoreImpl

open Request

variable {st st' : StoreImpl} {msg : Bytes} {msgs : List Bytes} {q : Request} {reply : Option Bytes}
  {done : List (Request × Option Bytes)}

theorem receiveBuff_applied (r : Log) : (st.applied r).receiveBuff = st.receiveBuff := by
  rw [applied]
  cases r.kind <;> rfl

theorem receiveBuff_effect (h : st.effect q = .ok st') : st'.receiveBuff = st.receiveBuff := by
  cases q with
  | log r =>
      rw [effect] at h
      rcases ite_eq_iff.mp h with ⟨-, h⟩ | ⟨-, h⟩
      · cases h
        rfl
      obtain ⟨b, -, h⟩ := bind_eq_ok h
      rcases ite_eq_iff.mp h with ⟨-, h⟩ | ⟨-, h⟩
      · cases h
      · cases h
        rfl
  | commitLog =>
      rw [effect] at h
      obtain ⟨r, -, h⟩ := bind_eq_ok h
      cases h
      exact receiveBuff_applied r
  | _ =>
      cases h
      rfl

/-- No branch writes to the receive buffer. -/
theorem receiveBuff_execute (h : st.execute q = .ok (st', reply)) : st'.receiveBuff = st.receiveBuff := by
  cases hv : st.storeData.answer q with
  | none =>
      rw [execute_of_answer_none st hv] at h
      cases h
      rfl
  | some v =>
      rw [execute_eq st hv] at h
      obtain ⟨st₁, heffect, h⟩ := bind_eq_ok h
      rw [← receiveBuff_effect heffect]
      obtain ⟨b, -, h⟩ := bind_eq_ok h
      cases h
      rfl

theorem receiveBuff_serve (h : st.serve msg = .ok (q, st', reply)) : st'.receiveBuff = st.receiveBuff.receive msg :=
  receiveBuff_execute (serve_eq_ok h).2

/-- When nothing comes in, the request that was executed last is executed again. -/
theorem serve_nothing (h : st.serve msg = .ok (q, st', reply)) :
    st'.serve [] = (st'.execute q >>= fun p => .ok (q, p)) := by
  have hdec := (serve_eq_ok h).1
  have hbuff : { st' with receiveBuff := st'.receiveBuff.receive [] } = st' := by rw [Buff.receive_nil]
  rw [serve, hbuff, receiveBuff_serve h]
  rw [received] at hdec
  simp only [hdec, ok_bind]
  rfl

/-! ## Runs that go on -/

theorem run_quit (h : st.serve msg = .ok (.quit, st', reply)) (rest : List Bytes) :
    st.run (msg :: rest) = .ok (st', [(.quit, reply)]) := by
  rw [run, h]
  rfl

/-- A message that is received is executed. -/
theorem run_cons_ne_nil {p : StoreImpl × List (Request × Option Bytes)} (h : st.run (msg :: msgs) = .ok p) :
    p.2 ≠ [] := by
  rw [run] at h
  obtain ⟨⟨q, st₁, reply⟩, -, h⟩ := bind_eq_ok h
  rcases ite_eq_iff.mp h with ⟨-, h⟩ | ⟨-, h⟩
  · cases h
    exact List.cons_ne_nil _ _
  · obtain ⟨p', -, h⟩ := bind_eq_ok h
    cases h
    exact List.cons_ne_nil _ _

/-- A run that quit ignores what comes; one that did not goes on from where it is. -/
theorem run_append (h : st.run msgs = .ok (st', done)) (rest : List Bytes) :
    (Quits st.receiveBuff msgs → st.run (msgs ++ rest) = .ok (st', done)) ∧
    (¬Quits st.receiveBuff msgs → st.run (msgs ++ rest) = (st'.run rest >>= fun p => .ok (p.1, done ++ p.2))) := by
  induction msgs generalizing st done with
  | nil =>
      cases h
      refine ⟨fun hq => hq.elim, fun _ => ?_⟩
      cases hrun : st'.run rest <;> simp [hrun]
  | cons msg msgs ih =>
      rw [run] at h
      obtain ⟨⟨q, st₁, reply⟩, hserve, h⟩ := bind_eq_ok h
      have hdec : decodeRequest (st.receiveBuff.receive msg).bytes = .ok q := (serve_eq_ok hserve).1
      rw [Quits, hdec, ← receiveBuff_serve hserve, List.cons_append]
      rcases ite_eq_iff.mp h with ⟨rfl, h⟩ | ⟨hne, h⟩
      · cases h
        exact ⟨fun _ => run_quit hserve _, fun hq => absurd (Or.inl rfl) hq⟩
      · obtain ⟨⟨st₂, done'⟩, hrun, h⟩ := bind_eq_ok h
        cases h
        have hnot : ¬(Except.ok q : Except Fault Request) = .ok .quit := fun hq => hne (Except.ok.inj hq)
        rw [run_cons _ hserve hne]
        simp only [hnot, false_or]
        refine ⟨fun hq => by rw [(ih hrun).1 hq, ok_bind], fun hq => ?_⟩
        rw [(ih hrun).2 hq]
        cases st'.run rest <;> rfl

/-- After the end of the connection nothing is executed, and the loop is over, exactly if it quit before. -/
theorem closed_iff (h : st.run msgs = .ok (st', done)) :
    (∀ rest, st.run (msgs ++ [] :: rest) = .ok (st', done)) ↔ Quits st.receiveBuff msgs := by
  constructor
  · intro hclosed
    by_contra hq
    have hone := hclosed []
    rw [(run_append h _).2 hq] at hone
    obtain ⟨p, hp, hone⟩ := bind_eq_ok hone
    have hsame : done ++ p.2 = done := congrArg Prod.snd (Except.ok.inj hone)
    exact run_cons_ne_nil hp (List.append_right_eq_self.mp hsame)
  · intro hq rest
    exact (run_append h ([] :: rest)).1 hq

/-- Two records are logged, one commit is sent. -/
def loggedTwice : List Request := [.log ⟨.put, text "a", text "x"⟩, .log ⟨.put, text "b", text "y"⟩, .commitLog]

/-- The end of the connection commits the second record as well. -/
theorem run_again :
    ((emptyStore.run (loggedTwice.map message)).map fun p => (p.1.storeData.dbHandle.db.entries, p.2.map Prod.fst)) =
        .ok ([(text "a", text "x")], loggedTwice) ∧
      ((emptyStore.run (loggedTwice.map message ++ [[]])).map fun p =>
        (p.1.storeData.dbHandle.db.entries, p.2.map Prod.fst)) =
        .ok ([(text "a", text "x"), (text "b", text "y")], loggedTwice ++ [.commitLog]) := by
  decide +kernel

theorem closed_quit :
    ∃ st' done, emptyStore.run [size.message, quit.message] = .ok (st', done) ∧
      ((∀ rest, emptyStore.run ([size.message, quit.message] ++ [] :: rest) = .ok (st', done)) ↔
        Quits emptyStore.receiveBuff [size.message, quit.message]) :=
  ⟨_, _, rfl, closed_iff rfl⟩

end StoreImpl

end DistRocks
