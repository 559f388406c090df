import Mathlib.Data.Nat.Notation
import Mathlib.Logic.Function.Basic
import Mathlib.Logic.Relation

/-!
# One client of several servers

A client `move : κ → Move ι μ κ` sends messages to servers `serve : σ → μ → Option (σ × Option μ)`, one for each index
in `ι`; it waits for the answer to a `call` and does not wait after a `post`.

* `Direct.Step` : every message is served when it is sent; `Direct.Ends` : such a run to the halt of the client;
* `Net.Step` : messages are in flight, each channel keeps its order and its messages apart (a receipt takes one whole
  message), and any party may move;
* `Settles` : the requests in flight, served; `Settles.middle` : servers do not notice each other;
* `Agrees` : a network that becomes a direct state when its requests are settled; `Step.agrees` : a step of the network
  is one of the direct run or none of it;
* `Net.outcome` : if the direct run ends, then the network cannot run for ever, cannot get stuck, and ends as that run;
* `Demand` : what is demanded of the messages of a client; `Posting` : a client that posts only messages without answers;
* `Flight` : what such a client has in flight, in every run (`Net.Run.flight`).
-/

namespace Network

variable {ι μ σ κ : Type*}

/-- What a client does next. -/
inductive Move (ι μ κ : Type*)
  | halt
  | tick (k : κ)
  | post (i : ι) (m : μ) (k : κ)
  | call (i : ι) (m : μ) (k : μ → κ)

namespace Move

def map {κ' : Type*} (f : κ → κ') : Move ι μ κ → Move ι μ κ'
  | halt => halt
  | tick k => tick (f k)
  | post i m k => post i m (f k)
  | call i m k => call i m fun r => f (k r)

end Move

variable [DecidableEq ι]

section Defs
variable (move : κ → Move ι μ κ) (serve : σ → μ → Option (σ × Option μ))

/-! ## Direct runs -/

/-- A step of the client, with the servers at hand. -/
inductive Direct.Step : κ × (ι → σ) → κ × (ι → σ) → Prop
  | tick {k k' : κ} {S : ι → σ} (h : move k = .tick k') : Step (k, S) (k', S)
  | post {k k' : κ} {S : ι → σ} {i : ι} {m : μ} {s : σ} (h : move k = .post i m k')
      (hs : serve (S i) m = some (s, none)) : Step (k, S) (k', Function.update S i s)
  | call {k : κ} {k' : μ → κ} {S : ι → σ} {i : ι} {m r : μ} {s : σ} (h : move k = .call i m k')
      (hs : serve (S i) m = some (s, some r)) : Step (k, S) (k' r, Function.update S i s)

/-- `n` steps to the halt of the client. -/
inductive Direct.Ends : ℕ → κ × (ι → σ) → κ × (ι → σ) → Prop
  | halt {d : κ × (ι → σ)} (h : move d.1 = .halt) : Ends 0 d d
  | step {n : ℕ} {d d₁ e : κ × (ι → σ)} (h : Direct.Step move serve d d₁) (hs : Ends n d₁ e) : Ends (n + 1) d e

/-! ## Networks -/

inductive Phase (ι μ κ : Type*)
  | ready (k : κ)
  /-- after a call to `i` -/
  | waiting (i : ι) (k : μ → κ)

/-- The client, the servers, and the messages in flight in the order in which they were sent. -/
structure Net (ι μ σ κ : Type*) where
  phase : Phase ι μ κ
  server : ι → σ
  requests : List (ι × μ)
  replies : List (ι × μ)

/-- A step of the client, of a server that takes its oldest request, or of a client that takes an answer. -/
inductive Net.Step : Net ι μ σ κ → Net ι μ σ κ → Prop
  | tick {k k' : κ} {S : ι → σ} {q a : List (ι × μ)} (h : move k = .tick k') :
      Step ⟨.ready k, S, q, a⟩ ⟨.ready k', S, q, a⟩
  | post {k k' : κ} {S : ι → σ} {q a : List (ι × μ)} {i : ι} {m : μ} (h : move k = .post i m k') :
      Step ⟨.ready k, S, q, a⟩ ⟨.ready k', S, q ++ [(i, m)], a⟩
  | call {k : κ} {k' : μ → κ} {S : ι → σ} {q a : List (ι × μ)} {i : ι} {m : μ} (h : move k = .call i m k') :
      Step ⟨.ready k, S, q, a⟩ ⟨.waiting i k', S, q ++ [(i, m)], a⟩
  | serve {c : Phase ι μ κ} {S : ι → σ} {pre post a : List (ι × μ)} {i : ι} {m : μ} {s : σ} {r : Option μ}
      (hpre : ∀ x ∈ pre, x.1 ≠ i) (hs : serve (S i) m = some (s, r)) :
      Step ⟨c, S, pre ++ (i, m) :: post, a⟩ ⟨c, Function.update S i s, pre ++ post, a ++ (r.map (i, ·)).toList⟩
  | receive {k : μ → κ} {S : ι → σ} {q pre post : List (ι × μ)} {i : ι} {r : μ} (hpre : ∀ x ∈ pre, x.1 ≠ i) :
      Step ⟨.waiting i k, S, q, pre ++ (i, r) :: post⟩ ⟨.ready (k r), S, q, pre ++ post⟩

/-- `l` steps of a network. -/
inductive Net.Run : ℕ → Net ι μ σ κ → Net ι μ σ κ → Prop
  | nil {c : Net ι μ σ κ} : Run 0 c c
  | snoc {l : ℕ} {c c₁ c₂ : Net ι μ σ κ} (h : Run l c c₁) (hs : Net.Step move serve c₁ c₂) : Run (l + 1) c c₂

/-- Before any message is sent. -/
def Net.start (d : κ × (ι → σ)) : Net ι μ σ κ := ⟨.ready d.1, d.2, [], []⟩

/-- The requests `q`, served in their order by servers in the states `S`, leave these in `S'` and are answered by `a`. -/
inductive Settles : (ι → σ) → List (ι × μ) → (ι → σ) → List (ι × μ) → Prop
  | nil {S : ι → σ} : Settles S [] S []
  | cons {S S' : ι → σ} {q a : List (ι × μ)} {i : ι} {m : μ} {s : σ} {r : Option μ}
      (hs : serve (S i) m = some (s, r)) (h : Settles (Function.update S i s) q S' a) :
      Settles S ((i, m) :: q) S' ((r.map (i, ·)).toList ++ a)

/-- With its requests settled the network is in the direct state `d`, but for the answer that the client waits for. -/
def Agrees (c : Net ι μ σ κ) (d : κ × (ι → σ)) : Prop :=
  ∃ a, Settles serve c.server c.requests d.2 a ∧
    match c.phase with
    | .ready k => c.replies ++ a = [] ∧ d.1 = k
    | .waiting i k => ∃ r, c.replies ++ a = [(i, r)] ∧ d.1 = k r

end Defs

variable {move : κ → Move ι μ κ} {serve : σ → μ → Option (σ × Option μ)} {S S' : ι → σ} {q a : List (ι × μ)} {i : ι}
  {m : μ} {s : σ} {r : Option μ} {c c' : Net ι μ σ κ} {d d' e : κ × (ι → σ)} {n l : ℕ}

/-! ## Requests in flight -/

namespace Settles

theorem snoc (h : Settles serve S q S' a) (hs : serve (S' i) m = some (s, r)) :
    Settles serve S (q ++ [(i, m)]) (Function.update S' i s) (a ++ (r.map (i, ·)).toList) := by
  induction h with
  | nil => simpa using cons hs nil
  | cons hs' _ ih =>
      rw [List.append_assoc]
      exact cons hs' (ih hs)

/-- The oldest request to `i` may be served before the requests to others that were sent earlier. -/
theorem middle {pre post : List (ι × μ)} (h : Settles serve S (pre ++ (i, m) :: post) S' a)
    (hpre : ∀ x ∈ pre, x.1 ≠ i) :
    ∃ s r a', serve (S i) m = some (s, r) ∧ Settles serve (Function.update S i s) (pre ++ post) S' a' ∧
      ((r.map (i, ·)).toList ++ a').Perm a := by
  induction pre generalizing S a with
  | nil =>
      cases h with
      | cons hs h => exact ⟨_, _, _, hs, h, .refl _⟩
  | cons x pre ih =>
      obtain ⟨j, m'⟩ := x
      have hj : j ≠ i := hpre _ List.mem_cons_self
      cases h with
      | cons hs' h =>
          obtain ⟨s, r, a', hs, h, hperm⟩ := ih h fun x hx => hpre x (List.mem_cons_of_mem _ hx)
          rw [Function.update_of_ne hj.symm] at hs
          rw [Function.update_comm hj] at h
          refine ⟨s, r, _, hs, cons (by rwa [Function.update_of_ne hj]) h, ?_⟩
          rw [← List.append_assoc]
          exact (List.perm_append_comm.append_right a').trans (List.append_assoc .. ▸ hperm.append_left _)

end Settles

/-! ## Steps -/

theorem Direct.Step.unique (h : Direct.Step move serve d d') {d'' : κ × (ι → σ)}
    (h' : Direct.Step move serve d d'') : d' = d'' := by
  cases h <;> cases h' <;> simp_all

theorem Direct.Ends.of_steps (h : Relation.ReflTransGen (Direct.Step move serve) d e) (he : move e.1 = .halt) :
    ∃ n, Direct.Ends move serve n d e := by
  induction h using Relation.ReflTransGen.head_induction_on with
  | refl => exact ⟨0, .halt he⟩
  | head hs _ ih =>
      obtain ⟨n, hn⟩ := ih
      exact ⟨n + 1, .step hs hn⟩

/-- Where the client does not halt, a direct run takes its next step. -/
theorem Direct.Ends.next (he : Direct.Ends move serve n d e) (hk : move d.1 ≠ .halt) :
    ∃ d' n', n = n' + 1 ∧ Direct.Step move serve d d' ∧ Direct.Ends move serve n' d' e := by
  cases he with
  | halt h0 => exact absurd h0 hk
  | step hstep hrest => exact ⟨_, _, rfl, hstep, hrest⟩

/-- What is still to be done: the steps of the direct run, the requests in flight, and the answer to be taken. -/
def Net.left (n : ℕ) (c : Net ι μ σ κ) : ℕ :=
  3 * n + c.requests.length + match c.phase with
    | .ready _ => 0
    | .waiting _ _ => 1

namespace Agrees

theorem start (d : κ × (ι → σ)) : Agrees serve (Net.start (μ := μ) d) d := ⟨[], .nil, rfl, rfl⟩

/-- A move of the client is the next step of the direct run. -/
theorem client {k : κ} (h : Agrees serve ⟨.ready k, S, q, a⟩ d) (he : Direct.Ends move serve n d e)
    (hk : move k ≠ .halt) : ∃ d' n', n = n' + 1 ∧ Direct.Step move serve d d' ∧ Direct.Ends move serve n' d' e ∧
      d.1 = k ∧ a = [] ∧ Settles serve S q d.2 [] := by
  obtain ⟨a', hs, ha, hd⟩ := h
  obtain ⟨hreplies, rfl⟩ := List.append_eq_nil_iff.mp ha
  obtain ⟨d', n', hn, hstep, hrest⟩ := he.next (hd ▸ hk)
  exact ⟨d', n', hn, hstep, hrest, hd, hreplies, hs⟩

end Agrees

/-- A step of the network is a step of the direct run or leaves it where it is; less is left to be done. -/
theorem Net.Step.agrees (h : Net.Step move serve c c') (ha : Agrees serve c d) (he : Direct.Ends move serve n d e) :
    ∃ d' n', Agrees serve c' d' ∧ Direct.Ends move serve n' d' e ∧ Relation.ReflGen (Direct.Step move serve) d d' ∧
      c'.left n' < c.left n := by
  cases h with
  | @tick _ k' S q a hk =>
      obtain ⟨d', n', rfl, hstep, he', rfl, rfl, hs⟩ := ha.client he (by simp [hk])
      obtain rfl : d' = (k', d.2) := hstep.unique (.tick hk)
      refine ⟨(k', d.2), n', ⟨[], hs, rfl, rfl⟩, he', .single hstep, ?_⟩
      simp only [left]
      omega
  | post hk =>
      obtain ⟨d', n', rfl, hstep, he', rfl, rfl, hs⟩ := ha.client he (by simp [hk])
      cases hstep with
      | tick hk' | call hk' _ => rw [hk] at hk'; cases hk'
      | post hk' hserve =>
          rw [hk] at hk'
          cases hk'
          refine ⟨_, n', ⟨[], hs.snoc hserve, rfl, rfl⟩, he', .single (.post hk hserve), ?_⟩
          simp only [left, List.length_append, List.length_singleton]
          omega
  | call hk =>
      obtain ⟨d', n', rfl, hstep, he', rfl, rfl, hs⟩ := ha.client he (by simp [hk])
      cases hstep with
      | tick hk' | post hk' _ => rw [hk] at hk'; cases hk'
      | call hk' hserve =>
          rw [hk] at hk'
          cases hk'
          refine ⟨_, n', ⟨_, hs.snoc hserve, _, rfl, rfl⟩, he', .single (.call hk hserve), ?_⟩
          simp only [left, List.length_append, List.length_singleton]
          omega
  | @serve p S pre post a i m s r hpre hserve =>
      obtain ⟨a₀, hs, hd⟩ := ha
      obtain ⟨s, r, a', hserve', hs', hperm⟩ := hs.middle hpre
      rw [hserve] at hserve'
      cases hserve'
      -- at most one answer is on its way, so its place does not matter
      have hperm : (a ++ a₀).Perm (a ++ (r.map (i, ·)).toList ++ a') := by
        rw [List.append_assoc]
        exact (hperm.append_left a).symm
      refine ⟨d, n, ⟨a', hs', ?_⟩, he, .refl, ?_⟩
      · cases p with
        | ready k => exact ⟨(hd.1 ▸ hperm.symm).eq_nil, hd.2⟩
        | waiting j k =>
            obtain ⟨x, hx, hk⟩ := hd
            exact ⟨x, List.perm_singleton.mp (hx ▸ hperm.symm), hk⟩
      · simp only [left, List.length_append, List.length_cons]
        omega
  | @receive k S q pre post i x hpre =>
      obtain ⟨a₀, hs, y, hy, hk⟩ := ha
      have hone : pre ++ (i, x) :: (post ++ a₀) = [(i, y)] := by rw [← hy, List.append_assoc]; rfl
      obtain ⟨rfl, hone⟩ : pre = [] ∧ (i, x) :: (post ++ a₀) = [(i, y)] := by
        rcases List.append_eq_singleton_iff.mp hone with h | ⟨-, h⟩
        · exact h
        · cases h
      obtain ⟨hxy, hnil⟩ := List.cons.inj hone
      obtain ⟨rfl, rfl⟩ := List.append_eq_nil_iff.mp hnil
      cases hxy
      refine ⟨d, n, ⟨[], hs, rfl, hk⟩, he, .refl, ?_⟩
      simp only [left]
      omega

/-- While the direct run has an end, the network is at that end or some party can move. -/
theorem Agrees.progress (h : Agrees serve c d) (he : Direct.Ends move serve n d e) :
    c = ⟨.ready e.1, e.2, [], []⟩ ∨ ∃ c', Net.Step move serve c c' := by
  obtain ⟨p, S, q, a⟩ := c
  cases q with
  | cons x q =>
      -- the oldest request of all can be served
      obtain ⟨i, m⟩ := x
      obtain ⟨a', hs, -⟩ := h
      cases hs with
      | cons hserve _ =>
          have hfirst : ∀ x ∈ ([] : List (ι × μ)), x.1 ≠ i := by simp
          exact Or.inr ⟨_, .serve hfirst hserve⟩
  | nil =>
      cases p with
      | waiting i k =>
          obtain ⟨a', hs, r, ha, -⟩ := h
          cases hs
          obtain rfl : a = [(i, r)] := by simpa using ha
          have hfirst : ∀ x ∈ ([] : List (ι × μ)), x.1 ≠ i := by simp
          exact Or.inr ⟨_, .receive hfirst⟩
      | ready k =>
          by_cases hk : move k = .halt
          · obtain ⟨a', hs, ha, rfl⟩ := h
            cases hs
            obtain rfl : a = [] := by simpa using ha
            cases he with
            | halt => exact Or.inl rfl
            | step hstep _ => cases hstep <;> simp_all
          · obtain ⟨d', n', -, hstep, -, rfl, -⟩ := h.client he hk
            cases hstep with
            | tick hk' => exact Or.inr ⟨_, .tick hk'⟩
            | post hk' _ => exact Or.inr ⟨_, .post hk'⟩
            | call hk' _ => exact Or.inr ⟨_, .call hk'⟩

/-! ## Runs -/

theorem Net.Run.agrees (h : Net.Run move serve l c c') (ha : Agrees serve c d) (he : Direct.Ends move serve n d e) :
    ∃ d' n', Agrees serve c' d' ∧ Direct.Ends move serve n' d' e ∧
      Relation.ReflTransGen (Direct.Step move serve) d d' ∧ c'.left n' + l ≤ c.left n := by
  induction h with
  | nil => exact ⟨d, n, ha, he, .refl, Nat.le_refl _⟩
  | snoc _ hs ih =>
      obtain ⟨d₁, n₁, ha₁, he₁, hd₁, hle⟩ := ih ha
      obtain ⟨d₂, n₂, ha₂, he₂, hd₂, hlt⟩ := hs.agrees ha₁ he₁
      exact ⟨d₂, n₂, ha₂, he₂, hd₁.trans hd₂.to_reflTransGen, by omega⟩

/-- In any order of steps: if the direct run ends after `n` steps, then a network started there takes at most `3 * n`
steps, never has more than one answer on its way, and can always move until it has come to the same end with nothing in
flight. -/
theorem Net.outcome (he : Direct.Ends move serve n d e) (h : Net.Run move serve l (.start d) c) :
    l ≤ 3 * n ∧ c.replies.length ≤ 1 ∧ (c = ⟨.ready e.1, e.2, [], []⟩ ∨ ∃ c', Net.Step move serve c c') := by
  obtain ⟨d', n', ha, he', -, hle⟩ := h.agrees (.start d) he
  have hstart : (Net.start (μ := μ) d).left n = 3 * n := rfl
  refine ⟨by omega, ?_, ha.progress he'⟩
  obtain ⟨p, S, q, a⟩ := c
  obtain ⟨a', -, ha'⟩ := ha
  cases p with
  | ready k =>
      obtain rfl : a = [] := (List.append_eq_nil_iff.mp ha'.1).1
      exact Nat.zero_le 1
  | waiting i k =>
      obtain ⟨r, hr, -⟩ := ha'
      have hlen := congrArg List.length hr
      simp only [List.length_append, List.length_singleton] at hlen
      show a.length ≤ 1
      omega

/-! ## What is in flight -/

/-- What is demanded of a message, given what is demanded of the client behind it. -/
structure Demand (ι μ : Type*) where
  call : ι → μ → Prop → Prop
  post : ι → μ → Prop → Prop
  call_mono : ∀ {i : ι} {m : μ} {X Y : Prop}, (X → Y) → call i m X → call i m Y
  post_mono : ∀ {i : ι} {m : μ} {X Y : Prop}, (X → Y) → post i m X → post i m Y

/-- Posted messages are in `P`, and calls in `A`. -/
def Demand.sends (P A : ι → μ → Prop) : Demand ι μ where
  call i m X := A i m ∧ X
  post i m X := P i m ∧ X
  call_mono h := And.imp_right h
  post_mono h := And.imp_right h

/-- The move meets the demand, and goes on in `K`. -/
def Move.Meets (g : Demand ι μ) (K : κ → Prop) : Move ι μ κ → Prop
  | halt => True
  | tick k => K k
  | post i m k => g.post i m (K k)
  | call i m k => g.call i m (∀ r, K (k r))

/-- A client in `K` stays there, calls with messages of `A`, and posts messages of `P`, which no server answers. -/
structure Posting (move : κ → Move ι μ κ) (serve : σ → μ → Option (σ × Option μ)) (P A : ι → μ → Prop) (K : κ → Prop) :
    Prop where
  sends : ∀ k, K k → (move k).Meets (.sends P A) K
  silent : ∀ {i m s s' r}, P i m → serve s m = some (s', r) → r = none

/-- Posted messages are in flight, and behind them one request or its answer while the client waits for it. -/
def Flight (P : ι → μ → Prop) (K : κ → Prop) (c : Net ι μ σ κ) : Prop :=
  ∃ posted last, c.requests = posted ++ last ∧ (∀ x ∈ posted, P x.1 x.2) ∧
    match c.phase with
    | .ready k => K k ∧ last ++ c.replies = []
    | .waiting i k => (∀ r, K (k r)) ∧ (last ++ c.replies).length ≤ 1 ∧ ∀ x ∈ last ++ c.replies, x.1 = i

section Flight
variable {P A : ι → μ → Prop} {K : κ → Prop}

omit [DecidableEq ι] in
theorem Flight.start (h : K d.1) : Flight P K (Net.start (μ := μ) d) := ⟨[], [], rfl, by simp, h, rfl⟩

/-- Where an element of a list stands if the list is cut in two. -/
theorem split_middle {α : Type*} {x : α} {pre post front last : List α} (h : pre ++ x :: post = front ++ last) :
    (∃ back, front = pre ++ x :: back ∧ post = back ++ last) ∨ ∃ mid, pre = front ++ mid ∧ last = mid ++ x :: post := by
  rcases List.append_eq_append_iff.mp h with ⟨_ | ⟨y, back⟩, hpre, hback⟩ | hfront
  · exact Or.inr ⟨[], by simpa using hpre.symm, hback.symm⟩
  · obtain ⟨rfl, hpost⟩ := List.cons.inj hback
    exact Or.inl ⟨back, hpre, hpost⟩
  · exact Or.inr hfront

theorem Net.Step.flight (hK : Posting move serve P A K) (h : Net.Step move serve c c') (hc : Flight P K c) :
    Flight P K c' := by
  obtain ⟨posted, last, hq, hposted, hphase⟩ := hc
  cases h with
  | tick hk =>
      have hmove := hK.sends _ hphase.1
      rw [hk] at hmove
      exact ⟨posted, last, hq, hposted, hmove, hphase.2⟩
  | @post _ _ _ q _ i m hk =>
      obtain ⟨rfl, ha⟩ := List.append_eq_nil_iff.mp hphase.2
      have hmove := hK.sends _ hphase.1
      rw [hk] at hmove
      obtain rfl : q = posted := by simpa using hq
      refine ⟨q ++ [(i, m)], [], (List.append_nil _).symm, fun x hx => ?_, hmove.2, ha⟩
      rcases List.mem_append.mp hx with hx | hx
      · exact hposted x hx
      · obtain rfl := List.mem_singleton.mp hx
        exact hmove.1
  | @call _ _ _ q a i m hk =>
      have hmove := hK.sends _ hphase.1
      rw [hk] at hmove
      obtain ⟨rfl, ha⟩ := List.append_eq_nil_iff.mp hphase.2
      obtain rfl : q = posted := by simpa using hq
      obtain rfl : a = [] := ha
      exact ⟨q, [(i, m)], rfl, hposted, hmove.2, Nat.le_refl _, by simp⟩
  | @serve p S pre post a i m s r _ hs =>
      rcases split_middle hq with ⟨back, rfl, rfl⟩ | ⟨front, rfl, rfl⟩
      · -- a posted message, which is not answered
        obtain rfl := hK.silent (hposted (i, m) (by simp)) hs
        refine ⟨pre ++ back, last, (List.append_assoc ..).symm, fun x hx => hposted x ?_, by simpa using hphase⟩
        rcases List.mem_append.mp hx with hx | hx
        · exact List.mem_append_left _ hx
        · exact List.mem_append_right _ (List.mem_cons_of_mem _ hx)
      · -- the request that the client waits for, which is alone
        cases p with
        | ready k => simp at hphase
        | waiting j k =>
            obtain ⟨hk, hlen, hj⟩ := hphase
            obtain rfl : i = j := hj (i, m) (by simp)
            simp only [List.length_append, List.length_cons] at hlen
            obtain rfl := List.eq_nil_of_length_eq_zero (show front.length = 0 by omega)
            obtain rfl := List.eq_nil_of_length_eq_zero (show post.length = 0 by omega)
            obtain rfl := List.eq_nil_of_length_eq_zero (show a.length = 0 by omega)
            refine ⟨posted, [], by simp, hposted, hk, ?_, ?_⟩ <;> cases r <;> simp
  | @receive k S q pre post i x _ =>
      obtain ⟨hk, hlen, -⟩ := hphase
      simp only [List.length_append, List.length_cons] at hlen
      obtain rfl := List.eq_nil_of_length_eq_zero (show last.length = 0 by omega)
      obtain rfl := List.eq_nil_of_length_eq_zero (show pre.length = 0 by omega)
      obtain rfl := List.eq_nil_of_length_eq_zero (show post.length = 0 by omega)
      exact ⟨posted, [], hq, hposted, hk x, rfl⟩

theorem Net.Run.flight (hK : Posting move serve P A K) (h : Net.Run move serve l c c') (hc : Flight P K c) :
    Flight P K c' := by
  induction h with
  | nil => exact hc
  | snoc _ hs ih => exact hs.flight hK (ih hc)

/-- The direct run keeps the client in `K`. -/
theorem Direct.Step.posting (h : Direct.Step move serve d d') (hK : Posting move serve P A K) (hd : K d.1) : K d'.1 := by
  have hmove := hK.sends _ hd
  cases h with
  | tick hk =>
      rw [hk] at hmove
      exact hmove
  | post hk _ =>
      rw [hk] at hmove
      exact hmove.2
  | call hk _ =>
      rw [hk] at hmove
      exact hmove.2 _

end Flight

end Network
