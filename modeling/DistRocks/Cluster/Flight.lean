import DistRocks.Base.Frames
import DistRocks.Cluster.Interleaving

/-!
# What is in flight

* `Script.Meets g p Q o` : from `o`, whatever is answered, the messages of `p` meet the demand `g`, and `p` ends, if it
  does, with `Q`;
* `Script.Asks` : a program that sends whole requests only and waits for the answer to each of them; `asks_reBalance`,
  `asks_exec` : so do the functions of the control node; `meets_run` : and the console, but for its `test`s;
* `run_flight` : in every order of steps, only `test` messages are ever in flight with another message.
-/

namespace DistRocks

open ConstValues Proc Network

variable {α β ι : Type} {P : ℕ → Bytes → Prop} {g g' : Demand ℕ Bytes} {o : Own} {w w' : World}

/-! ## What a program holds in its send buffer -/

/-- What the control node needs to send a message that is assembled. -/
def World.sender (w : World) : ℕ × Buff := (w.storeNodeCount, w.sendBuff)

/-- The control node can still send what it has assembled. -/
def Sender (w w' : World) : Prop := w'.sender = w.sender

namespace Sender

instance refl : Std.Refl Sender := ⟨fun _ => rfl⟩

instance trans : IsTrans World Sender := ⟨fun _ _ _ h h' => Eq.trans h' h⟩

end Sender

theorem sender_receivedStr : Within Sender receivedStr := within_get.bind fun _ => within_lift _

theorem sender_searchMeta (key : Bytes) : Within Sender (searchMeta key) := within_get.bind fun _ => within_pure _

theorem sender_entryOf (it : Iterator) : Within Sender (entryOf it) := by
  rw [entryOf]
  cases it.current with
  | none => exact within_fail _
  | some e => exact within_pure e

theorem sender_metaOf (it : Iterator) : Within Sender (metaOf it) := (sender_entryOf it).bind fun _ => within_lift _

theorem sender_fdOf (c : ControlMeta) : Within Sender (fdOf c) := within_ite (within_pure _) (within_fail _)

namespace Script

/-- From `o` on, whatever is answered, `p` meets the demand `g`, and ends, if it does, with `Q`. -/
def Meets (g : Demand ℕ Bytes) : {α : Type} → Script α → (α → Own → Prop) → Own → Prop
  | _, pure a, Q, o => Q a o
  | _, act p _, Q, o => ∀ a w, p o.world = (.ok a, w) → Q a w.own
  | _, exchange fd len, Q, o => g.call fd (o.sendBuff.bytes.take len) (∀ b, Q () { o with receiveBuff := b })
  | _, post fd len, Q, o => g.post fd (o.sendBuff.bytes.take len) (Q () o)
  | _, bind p f, Q, o => p.Meets g (fun a o => (f a).Meets g Q o) o
  | _, loop test body, Q, _ =>
    (∀ o, test.Meets g (fun _ _ => True) o) ∧ (∀ o, body.Meets g (fun _ _ => True) o) ∧ ∀ a o, Q a o

theorem Meets.mono {p : Script α} {Q Q' : α → Own → Prop} (h : p.Meets g Q o) (hQ : ∀ a o, Q a o → Q' a o) :
    p.Meets g Q' o := by
  induction p generalizing o with
  | pure a => exact hQ a o h
  | act p _ => exact fun a w hp => hQ _ _ (h a w hp)
  | exchange fd len => exact g.call_mono (fun hb b => hQ _ _ (hb b)) h
  | post fd len => exact g.post_mono (hQ _ _) h
  | bind p f ihp ihf => exact ihp h fun a o ha => ihf a ha hQ
  | loop test body => exact ⟨h.1, h.2.1, fun a o => hQ a o (h.2.2 a o)⟩

/-- A weaker demand. -/
theorem Meets.imp {p : Script α} {Q : α → Own → Prop} (h : p.Meets g Q o)
    (hcall : ∀ {fd msg X}, g.call fd msg X → g'.call fd msg X) (hpost : ∀ {fd msg X}, g.post fd msg X → g'.post fd msg X) :
    p.Meets g' Q o := by
  induction p generalizing o with
  | pure a => exact h
  | act p _ => exact h
  | exchange fd len => exact hcall h
  | post fd len => exact hpost h
  | bind p f ihp ihf => exact (ihp h).mono fun a o ha => ihf a ha
  | loop test body iht ihb => exact ⟨fun o => iht (h.1 o), fun o => ihb (h.2.1 o), h.2.2⟩

/-- One step of a program. -/
theorem Meets.next {p : Script α} {Q : α → Own → Prop} (h : p.Meets g Q o) :
    match p.next o with
    | .inl a => Q a o
    | .inr m => m.Meets g fun c => c.1.Meets g Q c.2 := by
  induction p generalizing o with
  | pure a => exact h
  | act p _ =>
      rcases hp : p o.world with ⟨_ | a, w⟩ <;> simp only [Script.next, hp]
      · exact trivial
      · exact h a w hp
  | exchange fd len =>
      rw [Script.next]
      split_ifs
      · exact g.call_mono (fun hb r => hb _) h
      · exact trivial
  | post fd len =>
      rw [Script.next]
      split_ifs
      · exact h
      · exact trivial
  | bind p f ihp _ =>
      have hp := ihp h
      rw [Script.next]
      cases hn : p.next o with
      | inl a =>
          rw [hn] at hp
          exact hp
      | inr m =>
          rw [hn] at hp
          cases m with
          | halt => exact trivial
          | tick _ | post _ _ _ | call _ _ _ => exact hp
  | loop test body _ _ =>
      -- whatever the loop does next, it is again the parts of the loop
      refine (h.1 o).mono fun go o' _ => ?_
      cases go with
      | false => exact h.2.2 true o'
      | true =>
          refine (h.2.1 o').mono fun on o'' _ => ?_
          cases on with
          | false => exact h.2.2 false o''
          | true => exact h

/-- The process of a program. -/
theorem meets_move {c : Script α × Own} {Q : α → Own → Prop} (h : c.1.Meets g Q c.2) :
    (move c).Meets g fun c => c.1.Meets g Q c.2 := by
  have hnext := h.next
  rw [Script.move]
  cases hn : c.1.next c.2 with
  | inl a => exact trivial
  | inr m =>
      rw [hn] at hnext
      exact hnext

/-- A part that leaves alone what is assembled. -/
theorem meets_act {p : M α} {h : Local p} {Q : α → Own → Prop} (hp : Within Sender p)
    (hQ : ∀ a o', o'.storeNodeCount = o.storeNodeCount → o'.sendBuff = o.sendBuff → Q a o') : (act p h).Meets g Q o := by
  intro a w hw
  have hsender := hp o.world
  rw [hw] at hsender
  obtain ⟨hcount, hbuff⟩ := Prod.mk.inj hsender
  exact hQ a w.own hcount hbuff

/-- A message is assembled. -/
theorem meets_assembled {p : M ℕ} {h : Local p} {msg : Bytes} {Q : ℕ → Own → Prop} (hp : p = assemble msg)
    (hQ : ∀ len o', msg.length ≤ MAXLINE → o'.sendBuff.bytes.take len = msg → o'.storeNodeCount = o.storeNodeCount →
      Q len o') : (act p h).Meets g Q o := by
  intro len w hw
  obtain ⟨hlen, htake, hcount⟩ := assembled hp hw
  exact hQ len w.own hlen htake hcount

/-! ## Whole requests -/

/-- The message is a request. -/
def Whole (_fd : ℕ) (msg : Bytes) : Prop := ∃ q : Request, (∀ c, q ≠ .other c) ∧ msg = q.message ∧ msg.length ≤ MAXLINE

/-- A program that sends requests only, and waits for the answer to each of them. -/
def Asks (p : Script α) : Prop := ∀ o, p.Meets (.sends (fun _ _ => False) Whole) (fun _ _ => True) o

theorem Asks.meets {p : Script α} (h : p.Asks) {Q : α → Own → Prop} (hQ : ∀ a o, Q a o) :
    p.Meets (.sends P Whole) Q o := by
  have hmeets : p.Meets (.sends P Whole) (fun _ _ => True) o := (h o).imp id fun hfalse => hfalse.1.elim
  exact hmeets.mono fun a o _ => hQ a o

section Asks
variable {p q : Script α} {f : α → Script β}

theorem asks_pure (a : α) : (Pure.pure a : Script α).Asks := fun _ => trivial

theorem asks_act {p : M α} (h : Local p) : (act p h).Asks := fun _ _ _ _ => trivial

theorem Asks.bind (hp : p.Asks) (hf : ∀ a, (f a).Asks) : (p >>= f).Asks := fun o => (hp o).mono fun a o _ => hf a o

theorem asks_loop {test body : Script Bool} (ht : test.Asks) (hb : body.Asks) : (loop test body).Asks :=
  fun _ => ⟨ht, hb, fun _ _ => trivial⟩

theorem asks_ite {c : Prop} [Decidable c] (hp : c → p.Asks) (hq : ¬c → q.Asks) : (if c then p else q).Asks := by
  split_ifs with hc
  · exact hp hc
  · exact hq hc

theorem asks_forEachWhile {f : ι → Script Bool} (hf : ∀ i, (f i).Asks) (is : List ι) : (forEachWhile f is).Asks := by
  induction is with
  | nil => exact asks_pure true
  | cons i is ih =>
      refine (hf i).bind fun on => ?_
      cases on with
      | false => exact asks_pure false
      | true => exact ih

theorem asks_foldlM {f : β → ι → Script β} (hf : ∀ b i, (f b i).Asks) (is : List ι) (b : β) : (is.foldlM f b).Asks := by
  induction is generalizing b with
  | nil => exact asks_pure b
  | cons i is ih => exact (hf b i).bind fun b' => ih b'

/-- A request that is assembled, sent, and perhaps followed by more. -/
theorem asks_sent {p : M ℕ} {h : Local p} {r : Request} {f : ℕ → Script β} (hp : p = assemble r.message)
    (hr : ∀ c, r ≠ .other c) (hf : ∀ len o, Whole 0 (o.sendBuff.bytes.take len) →
      (f len).Meets (.sends (fun _ _ => False) Whole) (fun _ _ => True) o) : (act p h >>= f).Asks :=
  fun _ => meets_assembled hp fun len o' hlen htake _ => hf len o' ⟨r, hr, htake, htake ▸ hlen⟩

end Asks

/-! ## The functions of the control node -/

theorem asks_request {command : Bytes} (q : Request) (hq : [command].flatMap encStr = q.message) (hother : ∀ c, q ≠ .other c)
    (fd : ℕ) : (request command fd).Asks :=
  asks_sent ((assembleStrs_eq _).trans (congrArg assemble hq)) hother fun _ _ hwhole => ⟨hwhole, fun _ => trivial⟩

theorem asks_getSize (fd : ℕ) : (getSize fd).Asks :=
  (asks_request .size rfl (fun c hc => by cases hc) fd).bind fun _ => asks_act _

theorem asks_pick (pass : Pass) (i : ℕ) : (pick pass i).Asks := by
  cases pass with
  | forward => exact (asks_request .maxKey rfl (fun c hc => by cases hc) i).bind fun _ => asks_act _
  | backward => exact (asks_request .minKey rfl (fun c hc => by cases hc) i).bind fun _ => asks_act _

theorem asks_requestLog (fd : ℕ) (log : Log) : (requestLog fd log).Asks :=
  asks_sent (r := .log log) (assembleLog_eq log) (fun c hc => by cases hc) fun _ _ hwhole => ⟨hwhole, fun _ =>
    ((asks_act _).bind fun _ => (asks_act _).bind fun _ => (asks_act _).bind fun _ => asks_pure _) _⟩

theorem asks_rollback (i peer : ℕ) : (rollback i peer).Asks :=
  asks_sent (r := .delLog) (assembleStrs_eq _) (fun c hc => by cases hc) fun _ _ hwhole =>
    ⟨hwhole, fun _ => ⟨hwhole, fun _ => trivial⟩⟩

theorem asks_commitBoth (i peer : ℕ) : (commitBoth i peer).Asks := by
  refine asks_sent (r := .commitLog) (assembleStrs_eq _) (fun c hc => by cases hc) fun len o hwhole => ⟨hwhole, fun b => ?_⟩
  refine meets_act sender_receivedStr fun ans o' _ hbuff => ?_
  have hsecond : Whole 0 (o'.sendBuff.bytes.take len) := hbuff ▸ hwhole
  show (if ans.1 ≠ OK then _ else _ : Script Bool).Meets _ _ _
  split_ifs
  · exact trivial
  · exact ⟨hsecond, fun _ => ((asks_act _).bind fun _ => asks_pure _) _⟩

theorem asks_migrate (pass : Pass) (i : ℕ) : (migrate pass i).Asks := by
  refine (asks_pick pass i).bind fun e => (asks_requestLog i _).bind fun vote₁ => ?_
  refine (asks_requestLog (pass.peer i) _).bind fun vote₂ => ?_
  have hrest : (do
      act (moveMeta pass e.1 vote₁.2 vote₂.2) (local_moveMeta pass e.1 vote₁.2 vote₂.2)
      commitBoth i (pass.peer i)).Asks := (asks_act _).bind fun _ => asks_commitBoth i (pass.peer i)
  exact asks_ite (fun _ => (asks_rollback i (pass.peer i)).bind fun _ => hrest) fun _ => hrest

section Console
variable (F : Type) [Double F]

theorem asks_reBalance : (reBalance F).Asks := by
  have htotal : totalSize.Asks :=
    (asks_act _).bind fun _ => asks_foldlM (fun _ i => (asks_getSize i).bind fun _ => asks_pure _) _ _
  have hnot : ∀ fd total perfect, (notTooMuch F fd total perfect).Asks := fun fd _ _ =>
    (asks_getSize fd).bind fun _ => asks_ite (fun _ => asks_pure true) fun _ =>
      (asks_request .lessOrEqualOne rfl (fun c hc => by cases hc) fd).bind fun _ => (asks_act _).bind fun _ => asks_pure _
  have hpass : ∀ pass total perfect, (runPass F pass total perfect).Asks := fun pass _ _ =>
    (asks_act _).bind fun _ => asks_forEachWhile (fun i =>
      asks_loop ((hnot i _ _).bind fun _ => asks_pure _) (asks_migrate pass i)) _
  have hshow : showMeta.Asks :=
    (asks_act _).bind fun _ => (asks_forEachWhile (fun _ => (asks_act _).bind fun _ => (asks_act _).bind fun fd =>
      (asks_getSize fd).bind fun _ => asks_pure true) _).bind fun _ => asks_pure ()
  refine htotal.bind fun total => (asks_act _).bind fun n => (hpass .forward total _).bind fun on => ?_
  refine asks_ite (fun _ => ?_) fun _ => asks_pure ()
  exact (hpass .backward total _).bind fun on => asks_ite (fun _ => hshow) fun _ => asks_pure ()

/-- Where a request goes is looked up after it has been assembled. -/
theorem meets_located {key : Bytes} {f : Iterator → ControlMeta → ℕ → Script α} {Q : α → Own → Prop}
    (hf : ∀ it c fd o', o'.storeNodeCount = o.storeNodeCount → o'.sendBuff = o.sendBuff → (f it c fd).Meets g Q o') :
    (do
      let it ← searchMeta key
      let controlMeta ← metaOf it
      let virtual_fd ← fdOf controlMeta
      f it controlMeta virtual_fd).Meets g Q o := by
  refine meets_act (sender_searchMeta key) fun it o₁ hcount₁ hbuff₁ => ?_
  refine meets_act (sender_metaOf it) fun c o₂ hcount₂ hbuff₂ => ?_
  refine meets_act (sender_fdOf c) fun fd o₃ hcount₃ hbuff₃ => ?_
  exact hf it c fd o₃ (hcount₃.trans (hcount₂.trans hcount₁)) (hbuff₃.trans (hbuff₂.trans hbuff₁))

theorem asks_putUpdate (key value : Bytes) : (putUpdate key value).Asks := by
  refine asks_sent (r := .log ⟨.put, key, value⟩) (assembleLog_eq _) (fun c hc => by cases hc) fun len o hwhole => ?_
  refine meets_located fun it c fd o' _ hbuff => ⟨hbuff ▸ hwhole, fun _ => ?_⟩
  refine ((asks_act _).bind fun ans => asks_ite (fun _ => (asks_act _).bind fun _ => ?_) fun _ => asks_pure ()) _
  exact (asks_request .commitLog rfl (fun c hc => by cases hc) fd).bind fun _ => (asks_act _).bind fun _ => asks_pure ()

theorem asks_delUpdate (key : Bytes) : (delUpdate key).Asks := by
  refine asks_sent (r := .log ⟨.delete, key, []⟩) (assembleLog_eq _) (fun c hc => by cases hc) fun len o hwhole => ?_
  refine meets_located fun it c fd o' _ hbuff => ⟨hbuff ▸ hwhole, fun _ => ?_⟩
  refine ((asks_act _).bind fun ans => asks_ite (fun _ => ?_) fun _ => asks_pure ()) _
  refine (asks_act _).bind fun _ => (asks_act _).bind fun _ => (asks_act _).bind fun _ => ?_
  exact (asks_request .commitLog rfl (fun c hc => by cases hc) fd).bind fun _ => (asks_act _).bind fun _ => asks_pure ()

theorem asks_getCommand (key : Bytes) : (getCommand key).Asks := by
  refine (asks_act _).bind fun it => (asks_act _).bind fun c => (asks_act _).bind fun fd => ?_
  have hmsg : [GET, key].flatMap encStr = (Request.get key).message := by simp [Request.message]
  exact asks_sent (r := .get key) ((assembleStrs_eq _).trans (congrArg assemble hmsg)) (fun c hc => by cases hc)
    fun _ _ hwhole => ⟨hwhole, fun _ => ((asks_act _).bind fun _ => asks_act _) _⟩

/-- Only `test` posts. -/
theorem asks_exec {c : Command} (hc : ∀ s, c ≠ .test s) : (exec F c).Asks := by
  cases c with
  | quit | other _ => exact asks_pure ()
  | test s => exact absurd rfl (hc s)
  | put key value => exact (asks_putUpdate key value).bind fun _ => asks_reBalance F
  | get key => exact asks_getCommand key
  | del key => exact asks_ite (fun _ => asks_pure ()) fun _ => (asks_delUpdate key).bind fun _ => asks_reBalance F

/-- The messages that a list of commands posts. -/
def Test (cs : List Command) (fd : ℕ) (msg : Bytes) : Prop :=
  fd = 0 ∧ ∃ s, .test s ∈ cs ∧ msg = (Request.test s).message ∧ msg.length ≤ MAXLINE

theorem meets_testCommand {cs : List Command} {s : Bytes} (hs : .test s ∈ cs) {A : ℕ → Bytes → Prop} {Q : Unit → Own → Prop}
    (hQ : ∀ a o, Q a o) : (testCommand s).Meets (.sends (Test cs) A) Q o :=
  meets_assembled (assembleStrs_test s) fun _ _ hlen htake _ => ⟨⟨rfl, s, hs, htake, htake ▸ hlen⟩, hQ _ _⟩

theorem meets_run {all cs : List Command} (hcs : ∀ c ∈ cs, c ∈ all) {Q : Unit → Own → Prop} (hQ : ∀ a o, Q a o) :
    (run F cs).Meets (.sends (Test all) Whole) Q o := by
  induction cs generalizing o with
  | nil => exact hQ _ _
  | cons c cs ih =>
      have hrest : ∀ o, (run F cs).Meets (.sends (Test all) Whole) Q o :=
        fun o => ih fun c hc => hcs c (List.mem_cons_of_mem _ hc)
      cases c with
      | quit => exact hQ _ _
      | test s => exact meets_testCommand (hcs _ List.mem_cons_self) fun _ o => hrest o
      | put _ _ | get _ | del _ | other _ =>
          exact (asks_exec F fun s hs => by cases hs).meets fun _ o => hrest o

end Console

end Script

/-- Where the control node is: what is left of its program posts the `test`s of the commands and asks requests. -/
def Script.Runs (cs : List Command) (c : Script Unit × Own) : Prop :=
  c.1.Meets (.sends (Script.Test cs) Script.Whole) (fun _ _ => True) c.2

theorem posting_test (cs : List Command) : Posting Script.move StoreImpl.take (Script.Test cs) Script.Whole (Script.Runs cs) where
  sends := fun _ hc => Script.meets_move hc
  silent := by
    rintro i m st st' r ⟨-, s, -, rfl, hlen⟩ h
    rw [st.take_test hlen] at h
    cases h
    rfl

/-- In whatever order the control node and the stores take their steps, and whatever becomes of the run: in flight are
`test` messages to store 0, and behind them one request or one answer at most. -/
theorem run_flight (F : Type) [Double F] {cs : List Command} {w : World} {l : ℕ}
    {c : Net ℕ Bytes StoreImpl (Script Unit × Own)} (h : Net.Run Script.move StoreImpl.take l (w.net F cs) c) :
    ∃ tests last, c.requests = tests ++ last ∧
      (∀ x ∈ tests, x.1 = 0 ∧ ∃ s, .test s ∈ cs ∧ x.2 = (Request.test s).message) ∧ (last ++ c.replies).length ≤ 1 := by
  obtain ⟨phase, stores, requests, replies⟩ := c
  have hstart : Flight (Script.Test cs) (Script.Runs cs) (w.net F cs) :=
    .start (Script.meets_run F (fun _ hc => hc) fun _ _ => trivial)
  obtain ⟨tests, last, hq, htests, hphase⟩ := h.flight (posting_test cs) hstart
  refine ⟨tests, last, hq, fun x hx => ?_, ?_⟩
  · obtain ⟨h0, s, hs, hmsg, -⟩ := htests x hx
    exact ⟨h0, s, hs, hmsg⟩
  · cases phase with
    | ready k =>
        rw [hphase.2]
        exact Nat.zero_le 1
    | waiting i k => exact hphase.2.1

/-- One `test`, sent and not yet read. -/
theorem run_test_sent : Net.Run Script.move StoreImpl.take 3 (oneStore.net ℚ [.test (text "hello")])
    ⟨.ready (.bind (.pure ()) fun _ => .pure (), (testCommand (text "hello") oneStore).2.own), oneStore.cluster.stores,
      [(0, (Request.test (text "hello")).message)], []⟩ :=
  .snoc (.snoc (.snoc .nil (.tick rfl)) (.tick rfl)) (.post rfl)

theorem run_flight_oneStore :
    ∃ tests last, [(0, (Request.test (text "hello")).message)] = tests ++ last ∧
      (∀ x ∈ tests, x.1 = 0 ∧ ∃ s, .test s ∈ [Command.test (text "hello")] ∧ x.2 = (Request.test s).message) ∧
        (last ++ ([] : List (ℕ × Bytes))).length ≤ 1 :=
  run_flight ℚ run_test_sent

end DistRocks
