import DistRocks.Base.Network

/-!
# Messages that arrive as one

A channel keeps the order of its messages and not where one ends and the next begins: the receiver may take two that are
in flight for one, `join m m'`.

* `Joining.Step` : a step of a network, or two messages of one channel become one; `Net.Lost` : the client waits for an
  answer with nothing in flight, for ever (`Net.Lost.stuck`);
* `Joinable` : posted messages are read as if nothing came behind them, and answers do not depend on them;
* `Joining.Stands` : the point of the direct run where the client stands (`Joining.Run.stands`), what is posted being on
  its way or having swallowed the call; `Joining.outcome` : such a network ends as the direct run, or the client is lost;
* `Joining.lost` : it is, when the first call behind a posted message may be joined to it.
-/

namespace Network

variable {ι μ σ κ β : Type*} [DecidableEq ι]

section Defs
variable (move : κ → Move ι μ κ) (serve : σ → μ → Option (σ × Option μ)) (join : μ → μ → Option μ)

/-- A step of the network, or two messages of a channel, one behind the other, become one. -/
inductive Joining.Step : Net ι μ σ κ → Net ι μ σ κ → Prop
  | step {c c' : Net ι μ σ κ} (h : Net.Step move serve c c') : Step c c'
  | requests {p : Phase ι μ κ} {S : ι → σ} {pre mid post a : List (ι × μ)} {i : ι} {m m' x : μ}
      (hmid : ∀ y ∈ mid, y.1 ≠ i) (hjoin : join m m' = some x) :
      Step ⟨p, S, pre ++ (i, m) :: (mid ++ (i, m') :: post), a⟩ ⟨p, S, pre ++ (i, x) :: (mid ++ post), a⟩
  | replies {p : Phase ι μ κ} {S : ι → σ} {q pre mid post : List (ι × μ)} {i : ι} {m m' x : μ}
      (hmid : ∀ y ∈ mid, y.1 ≠ i) (hjoin : join m m' = some x) :
      Step ⟨p, S, q, pre ++ (i, m) :: (mid ++ (i, m') :: post)⟩ ⟨p, S, q, pre ++ (i, x) :: (mid ++ post)⟩

/-- `l` steps of such a network. -/
inductive Joining.Run : ℕ → Net ι μ σ κ → Net ι μ σ κ → Prop
  | nil {c : Net ι μ σ κ} : Run 0 c c
  | snoc {l : ℕ} {c c₁ c₂ : Net ι μ σ κ} (h : Run l c c₁) (hs : Joining.Step move serve join c₁ c₂) : Run (l + 1) c c₂

/-- The client waits for an answer of `i`, and nothing is in flight. -/
def Net.Lost (c : Net ι μ σ κ) (i : ι) : Prop := (∃ k, c.phase = .waiting i k) ∧ c.requests = [] ∧ c.replies = []

/-- A client in `K` calls with messages of `A` and posts messages of `P`. Those of `P` stay so when they are joined with
what comes behind them; no server answers them, and they change nothing of what `obs` shows of it; and what is answered to
a message of `A` depends on that only. -/
structure Joinable (P A : ι → μ → Prop) (K : κ → Prop) (obs : σ → β) : Prop where
  sends : ∀ k, K k → (move k).Meets (.sends P A) K
  joined : ∀ {i m m' x}, P i m → join m m' = some x → P i x
  read : ∀ {i m} (s : σ), P i m → ∃ s', serve s m = some (s', none) ∧ obs s' = obs s
  answered : ∀ {i m s t t' r}, A i m → obs s = obs t → serve t m = some (t', r) →
    ∃ s', serve s m = some (s', r) ∧ obs s' = obs t'

/-- The client stands at `d`: before its next move, at a call that is the last request in flight or lost, or behind the
answer that is in flight. The other requests in flight are posted ones of `P`, and `obs` shows the servers as at `d`. -/
def Joining.Stands (P : ι → μ → Prop) (obs : σ → β) (c : Net ι μ σ κ) (d : κ × (ι → σ)) : Prop :=
  (∀ i, obs (c.server i) = obs (d.2 i)) ∧ ∃ posted, (∀ x ∈ posted, P x.1 x.2) ∧
    match c.phase with
    | .ready k => c.requests = posted ∧ c.replies = [] ∧ d.1 = k
    | .waiting i k => ∃ k' m, move k' = .call i m k ∧
        ((d.1 = k' ∧ c.requests = posted ++ [(i, m)] ∧ c.replies = []) ∨
          (∃ r, d.1 = k r ∧ c.requests = posted ∧ c.replies = [(i, r)]) ∨
          (d.1 = k' ∧ c.requests = posted ∧ c.replies = [] ∧ ∃ m₀, P i m₀))

/-- What is still to be done, when the direct run has `n` steps left. -/
def Joining.left (n : ℕ) (c : Net ι μ σ κ) : ℕ :=
  4 * n + c.requests.length + 3 * c.replies.length + match c.phase with
    | .ready _ => 2
    | .waiting _ _ => 0

end Defs

variable {move : κ → Move ι μ κ} {serve : σ → μ → Option (σ × Option μ)} {join : μ → μ → Option μ} {S : ι → σ} {i : ι}
  {m : μ} {s : σ} {r : Option μ} {c c' : Net ι μ σ κ} {d d' e : κ × (ι → σ)} {n l : ℕ} {P A : ι → μ → Prop} {K : κ → Prop}
  {obs : σ → β} {posted pre post : List (ι × μ)}

/-- Nothing need be joined. -/
theorem Net.Run.joining (h : Net.Run move serve l c c') : Joining.Run move serve join l c c' := by
  induction h with
  | nil => exact .nil
  | snoc _ hs ih => exact .snoc ih (.step hs)

theorem Net.Lost.stuck (h : c.Lost i) : ¬∃ c', Joining.Step move serve join c c' := by
  obtain ⟨p, S, q, a⟩ := c
  obtain ⟨⟨k, rfl⟩, rfl, rfl⟩ : (∃ k, p = .waiting i k) ∧ q = [] ∧ a = [] := h
  rintro ⟨c', hstep⟩
  generalize hc : (⟨.waiting i k, S, [], []⟩ : Net ι μ σ κ) = c at hstep
  cases hstep with
  | step h =>
      cases h with
      | tick | post | call => cases hc
      | serve => simp at hc
      | receive => simp at hc
  | requests => simp at hc
  | replies => simp at hc

namespace Joinable

omit [DecidableEq ι] in
theorem posting (hJ : Joinable move serve join P A K obs) : Posting move serve P A K where
  sends := hJ.sends
  silent := fun {_ _ s _ _} hP hs => by
    obtain ⟨s', hs', -⟩ := hJ.read s hP
    rw [hs] at hs'
    exact (Prod.mk.inj (Option.some.inj hs')).2

/-- A posted message is read. -/
theorem served (hJ : Joinable move serve join P A K obs) (hposted : ∀ x ∈ posted, P x.1 x.2)
    (hq : posted = pre ++ (i, m) :: post) (hs : serve (S i) m = some (s, r)) :
    r = none ∧ (∀ j, obs (Function.update S i s j) = obs (S j)) ∧ ∀ x ∈ pre ++ post, P x.1 x.2 := by
  obtain ⟨s', hs', hobs⟩ := hJ.read (S i) (hposted (i, m) (by simp [hq]))
  rw [hs] at hs'
  obtain ⟨rfl, rfl⟩ := Prod.mk.inj (Option.some.inj hs')
  refine ⟨rfl, fun j => ?_, fun x hx => hposted x ?_⟩
  · by_cases hj : j = i
    · subst hj
      rw [Function.update_self, hobs]
    · rw [Function.update_of_ne hj]
  · rw [hq]
    rcases List.mem_append.mp hx with hx | hx
    · exact List.mem_append_left _ hx
    · exact List.mem_append_right _ (List.mem_cons_of_mem _ hx)

omit [DecidableEq ι] in
/-- A posted message is joined with another one. -/
theorem joined_posted (hJ : Joinable move serve join P A K obs) {mid : List (ι × μ)} {m' x : μ}
    (hposted : ∀ y ∈ pre ++ (i, m) :: (mid ++ (i, m') :: post), P y.1 y.2) (hjoin : join m m' = some x) :
    ∀ y ∈ pre ++ (i, x) :: (mid ++ post), P y.1 y.2 := by
  intro y hy
  rcases List.mem_append.mp hy with hy | hy
  · exact hposted y (List.mem_append_left _ hy)
  rcases List.mem_cons.mp hy with rfl | hy
  · exact hJ.joined (hposted (i, m) (by simp)) hjoin
  rcases List.mem_append.mp hy with hy | hy
  · exact hposted y (by simp [hy])
  · exact hposted y (by simp [hy])

/-- A call is answered as in the direct run. -/
theorem answer (hJ : Joinable move serve join P A K obs) (hd : K d.1) (he : Direct.Ends move serve n d e) {k : μ → κ}
    (hcall : move d.1 = .call i m k) (hobs : obs (S i) = obs (d.2 i)) :
    ∃ n' x t s', n = n' + 1 ∧ Direct.Step move serve d (k x, Function.update d.2 i t) ∧
      Direct.Ends move serve n' (k x, Function.update d.2 i t) e ∧ serve (S i) m = some (s', some x) ∧ obs s' = obs t := by
  have hmove := hJ.sends _ hd
  rw [hcall] at hmove
  obtain ⟨d', n', rfl, hstep, hrest⟩ := he.next (by simp [hcall])
  cases hstep with
  | tick hk | post hk _ => rw [hcall] at hk; cases hk
  | call hk hanswer =>
      cases hcall.symm.trans hk
      obtain ⟨s', hs', hsame⟩ := hJ.answered hmove.1 hobs hanswer
      exact ⟨n', _, _, s', rfl, .call hcall hanswer, hrest, hs', hsame⟩

end Joinable

namespace Joining

/-! ## Steps -/

omit [DecidableEq ι] in
theorem Stands.start (d : κ × (ι → σ)) : Stands move P obs (Net.start (μ := μ) d) d :=
  ⟨fun _ => rfl, [], by simp, rfl, rfl, rfl⟩

/-- A step of the network, nothing being joined. -/
theorem Stands.step (hc : Stands move P obs c d) (h : Net.Step move serve c c') (hJ : Joinable move serve join P A K obs)
    (hd : K d.1) (he : Direct.Ends move serve n d e) :
    ∃ d' n', Stands move P obs c' d' ∧ K d'.1 ∧ Direct.Ends move serve n' d' e ∧
      Relation.ReflGen (Direct.Step move serve) d d' ∧ left n' c' < left n c := by
  obtain ⟨hobs, posted, hposted, hphase⟩ := hc
  cases h with
  | @tick k k' S _ _ hk =>
      obtain ⟨rfl, rfl, rfl⟩ := hphase
      obtain ⟨d', n', rfl, hstep, hrest⟩ := he.next (by simp [hk])
      obtain rfl : d' = (k', d.2) := hstep.unique (.tick hk)
      refine ⟨(k', d.2), n', ⟨hobs, _, hposted, rfl, rfl, rfl⟩, hstep.posting hJ.posting hd, hrest, .single hstep, ?_⟩
      simp only [left]
      omega
  | @post k k' S _ _ i m hk =>
      obtain ⟨rfl, rfl, rfl⟩ := hphase
      have hmove := hJ.sends _ hd
      rw [hk] at hmove
      obtain ⟨d', n', rfl, hstep, hrest⟩ := he.next (by simp [hk])
      have hnext := hstep.posting hJ.posting hd
      cases hstep with
      | tick hk' | call hk' _ => rw [hk] at hk'; cases hk'
      | @post _ _ _ _ _ s hk' hserve =>
          rw [hk] at hk'
          cases hk'
          -- the server of the direct run reads it at once
          have hone : ∀ x ∈ [(i, m)], P x.1 x.2 := fun x hx => List.mem_singleton.mp hx ▸ hmove.1
          obtain ⟨-, hsame, -⟩ := hJ.served hone (List.nil_append _).symm hserve
          refine ⟨_, n', ⟨fun j => (hobs j).trans (hsame j).symm, _, fun x hx => ?_, rfl, rfl, rfl⟩, hnext, hrest,
            .single (.post hk hserve), ?_⟩
          · rcases List.mem_append.mp hx with hx | hx
            · exact hposted x hx
            · exact hone x hx
          · simp only [left, List.length_append, List.length_singleton]
            omega
  | @call k k' S _ _ i m hk =>
      obtain ⟨rfl, rfl, rfl⟩ := hphase
      refine ⟨d, n, ⟨hobs, _, hposted, d.1, m, hk, Or.inl ⟨rfl, rfl, rfl⟩⟩, hd, he, .refl, ?_⟩
      simp only [left, List.length_append, List.length_singleton]
      omega
  | @serve p S pre post a i m s r hpre hserve =>
      -- a posted message of the front is read
      have hfront : ∀ {back}, posted = pre ++ (i, m) :: back → r = none ∧
          (∀ j, obs (Function.update S i s j) = obs (d.2 j)) ∧ ∀ x ∈ pre ++ back, P x.1 x.2 := fun hq => by
        obtain ⟨hr, hsame, hall⟩ := hJ.served hposted hq hserve
        exact ⟨hr, fun j => (hsame j).trans (hobs j), hall⟩
      have hless : r = none → left n ⟨p, Function.update S i s, pre ++ post, a ++ (r.map (i, ·)).toList⟩ <
          left n ⟨p, S, pre ++ (i, m) :: post, a⟩ := by
        rintro rfl
        simp only [left, List.length_append, List.length_cons, Option.map_none, Option.toList_none, List.append_nil]
        omega
      cases p with
      | ready k =>
          obtain ⟨hq, rfl, hk⟩ := hphase
          obtain ⟨rfl, hsame, hall⟩ := hfront hq.symm
          exact ⟨d, n, ⟨hsame, _, hall, rfl, rfl, hk⟩, hd, he, .refl, hless rfl⟩
      | waiting j k =>
          obtain ⟨k', m', hcall, ⟨rfl, hq, rfl⟩ | ⟨x, hk, hq, rfl⟩ | ⟨rfl, hq, rfl, hm₀⟩⟩ := hphase
          · rcases split_middle hq with ⟨back, hback, rfl⟩ | ⟨front, rfl, hlast⟩
            · obtain ⟨rfl, hsame, hall⟩ := hfront hback
              exact ⟨d, n, ⟨hsame, _, hall, d.1, m', hcall, Or.inl ⟨rfl, (List.append_assoc ..).symm, rfl⟩⟩, hd, he, .refl,
                hless rfl⟩
            · -- the call itself, which is answered as at `d`
              have hone : front = [] ∧ (i, m) :: post = [(j, m')] := by
                rcases List.append_eq_singleton_iff.mp hlast.symm with hone | ⟨-, hnil⟩
                · exact hone
                · cases hnil
              obtain ⟨rfl, hone⟩ := hone
              obtain ⟨hsent, rfl⟩ := List.cons.inj hone
              obtain ⟨rfl, rfl⟩ := Prod.mk.inj hsent
              obtain ⟨n', x, t, s', rfl, hstep, hrest, hs', hsame⟩ := hJ.answer hd he hcall (hobs i)
              obtain ⟨rfl, rfl⟩ := Prod.mk.inj (Option.some.inj (hserve.symm.trans hs'))
              refine ⟨_, n', ⟨fun j => ?_, posted, hposted, _, m, hcall, Or.inr (Or.inl ⟨x, rfl, by simp, by simp⟩)⟩,
                hstep.posting hJ.posting hd, hrest, .single hstep, ?_⟩
              · by_cases hj : j = i
                · subst hj
                  simpa using hsame
                · simpa [hj] using hobs j
              · simp only [left, List.length_append, List.length_cons, Option.map_some, Option.toList_some, List.length_nil]
                omega
          · obtain ⟨rfl, hsame, hall⟩ := hfront hq.symm
            exact ⟨d, n, ⟨hsame, _, hall, k', m', hcall, Or.inr (Or.inl ⟨x, hk, rfl, rfl⟩)⟩, hd, he, .refl, hless rfl⟩
          · obtain ⟨rfl, hsame, hall⟩ := hfront hq.symm
            exact ⟨d, n, ⟨hsame, _, hall, d.1, m', hcall, Or.inr (Or.inr ⟨rfl, rfl, rfl, hm₀⟩)⟩, hd, he, .refl, hless rfl⟩
  | @receive k S q pre post i x hpre =>
      obtain ⟨_, _, -, ⟨-, -, ha⟩ | ⟨y, hk, hq, ha⟩ | ⟨-, -, ha, -⟩⟩ := hphase
      · simp at ha
      · obtain ⟨rfl, ha⟩ := List.append_eq_singleton_iff.mp ha |>.resolve_right (by simp)
        obtain ⟨hxy, rfl⟩ := List.cons.inj ha
        cases hxy
        refine ⟨d, n, ⟨hobs, posted, hposted, hq, rfl, hk⟩, hd, he, .refl, ?_⟩
        simp only [left, List.nil_append, List.length_cons, List.length_nil]
        omega
      · simp at ha

omit [DecidableEq ι] in
/-- Two requests become one. -/
theorem Stands.requests {p : Phase ι μ κ} {mid a : List (ι × μ)} {m' x : μ}
    (hc : Stands move P obs ⟨p, S, pre ++ (i, m) :: (mid ++ (i, m') :: post), a⟩ d)
    (hJ : Joinable move serve join P A K obs) (hjoin : join m m' = some x) :
    Stands move P obs ⟨p, S, pre ++ (i, x) :: (mid ++ post), a⟩ d := by
  obtain ⟨hobs, posted, hposted, hphase⟩ := hc
  cases p with
  | ready k =>
      obtain ⟨rfl, ha, hk⟩ := hphase
      exact ⟨hobs, _, hJ.joined_posted hposted hjoin, rfl, ha, hk⟩
  | waiting j k =>
      obtain ⟨k', m₀, hcall, ⟨hk, hq, ha⟩ | ⟨r, hk, rfl, ha⟩ | ⟨hk, rfl, ha, hm₀⟩⟩ := hphase
      · have hq : (pre ++ (i, m) :: mid) ++ (i, m') :: post = posted ++ [(j, m₀)] := by
          rw [← hq, List.append_assoc, List.cons_append]
        rcases split_middle hq with ⟨back, rfl, rfl⟩ | ⟨front, hfront, hlast⟩
        · rw [List.append_assoc, List.cons_append] at hposted
          refine ⟨hobs, _, hJ.joined_posted hposted hjoin, k', m₀, hcall, Or.inl ⟨hk, ?_, ha⟩⟩
          simp
        · -- the call is joined to a posted message
          obtain ⟨rfl, hlast⟩ : front = [] ∧ (i, m') :: post = [(j, m₀)] := by
            rcases List.append_eq_singleton_iff.mp hlast.symm with hone | ⟨-, hnil⟩
            · exact hone
            · cases hnil
          obtain ⟨hsent, rfl⟩ := List.cons.inj hlast
          obtain ⟨rfl, rfl⟩ := Prod.mk.inj hsent
          rw [List.append_nil] at hfront
          subst hfront
          have hx : P j x := hJ.joined (hposted (j, m) (by simp)) hjoin
          refine ⟨hobs, pre ++ (j, x) :: mid, fun y hy => ?_, k', m₀, hcall,
            Or.inr (Or.inr ⟨hk, by rw [List.append_nil], ha, x, hx⟩)⟩
          rcases List.mem_append.mp hy with hy | hy
          · exact hposted y (List.mem_append_left _ hy)
          rcases List.mem_cons.mp hy with rfl | hy
          · exact hx
          · exact hposted y (List.mem_append_right _ (List.mem_cons_of_mem _ hy))
      · exact ⟨hobs, _, hJ.joined_posted hposted hjoin, k', m₀, hcall, Or.inr (Or.inl ⟨r, hk, rfl, ha⟩)⟩
      · exact ⟨hobs, _, hJ.joined_posted hposted hjoin, k', m₀, hcall, Or.inr (Or.inr ⟨hk, rfl, ha, hm₀⟩)⟩

omit [DecidableEq ι] in
theorem Stands.length_replies (hc : Stands move P obs c d) : c.replies.length ≤ 1 := by
  obtain ⟨p, S, q, a⟩ := c
  obtain ⟨-, posted, -, hphase⟩ := hc
  cases p with
  | ready k =>
      obtain ⟨-, rfl, -⟩ := hphase
      exact Nat.zero_le 1
  | waiting i k => obtain ⟨_, _, -, ⟨-, -, rfl⟩ | ⟨_, -, -, rfl⟩ | ⟨-, -, rfl, -⟩⟩ := hphase <;> simp

/-- A step is a step of the direct run or leaves the client where it stands; less is left to be done. -/
theorem Step.stands (h : Joining.Step move serve join c c') (hJ : Joinable move serve join P A K obs)
    (hc : Stands move P obs c d) (hd : K d.1) (he : Direct.Ends move serve n d e) :
    ∃ d' n', Stands move P obs c' d' ∧ K d'.1 ∧ Direct.Ends move serve n' d' e ∧
      Relation.ReflGen (Direct.Step move serve) d d' ∧ left n' c' < left n c := by
  cases h with
  | step h => exact hc.step h hJ hd he
  | requests _ hjoin =>
      refine ⟨d, n, hc.requests hJ hjoin, hd, he, .refl, ?_⟩
      simp only [left, List.length_append, List.length_cons]
      omega
  | replies =>
      have hlen := hc.length_replies
      simp only [List.length_append, List.length_cons] at hlen
      omega

/-! ## Runs -/

/-- Wherever the network is, its client stands at a point of the direct run. -/
theorem Run.stands (h : Joining.Run move serve join l (.start d) c) (hJ : Joinable move serve join P A K obs) (hd : K d.1)
    (he : Direct.Ends move serve n d e) :
    ∃ d' n', Stands move P obs c d' ∧ K d'.1 ∧ Direct.Ends move serve n' d' e ∧
      Relation.ReflTransGen (Direct.Step move serve) d d' ∧ l + left n' c ≤ 4 * n + 2 := by
  generalize hstart : Net.start d = c₀ at h
  induction h with
  | nil => exact ⟨d, n, hstart ▸ .start d, hd, he, .refl, by simp [← hstart, left, Net.start]⟩
  | snoc _ hs ih =>
      obtain ⟨d₁, n₁, hc, hk, hends, hsteps, hle⟩ := ih hstart
      obtain ⟨d₂, n₂, hc', hk', hends', hstep, hlt⟩ := hs.stands hJ hc hk hends
      exact ⟨d₂, n₂, hc', hk', hends', hsteps.trans hstep.to_reflTransGen, by omega⟩

/-- Where no step is left, the client is lost or the direct run has ended. -/
theorem Stands.progress (hc : Stands move P obs c d) (hJ : Joinable move serve join P A K obs) (hd : K d.1)
    (he : Direct.Ends move serve n d e) :
    (∃ c', Joining.Step move serve join c c') ∨ (∃ i m₀, c.Lost i ∧ P i m₀) ∨
      c.phase = .ready e.1 ∧ c.requests = [] ∧ c.replies = [] ∧ ∀ i, obs (c.server i) = obs (e.2 i) := by
  obtain ⟨p, S, q, a⟩ := c
  obtain ⟨hobs, posted, hposted, hphase⟩ := hc
  have hfirst : ∀ i, ∀ x ∈ ([] : List (ι × μ)), x.1 ≠ i := by simp
  -- a posted message can be read
  have hread : ∀ {i m back}, q = (i, m) :: back → P i m → ∃ c', Joining.Step move serve join ⟨p, S, q, a⟩ c' := by
    rintro i m back rfl hm
    obtain ⟨s', hs', -⟩ := hJ.read (S i) hm
    exact ⟨_, .step (.serve (hfirst i) hs')⟩
  cases p with
  | ready k =>
      obtain ⟨hq, ha, hk⟩ := hphase
      obtain rfl : q = posted := hq
      obtain rfl : a = [] := ha
      cases q with
      | cons x q => exact Or.inl (hread rfl (hposted x List.mem_cons_self))
      | nil =>
          obtain rfl : d.1 = k := hk
          cases he with
          | halt => exact Or.inr (Or.inr ⟨rfl, rfl, rfl, hobs⟩)
          | step hstep _ =>
              cases hstep with
              | tick hk' => exact Or.inl ⟨_, .step (.tick hk')⟩
              | post hk' _ => exact Or.inl ⟨_, .step (.post hk')⟩
              | call hk' _ => exact Or.inl ⟨_, .step (.call hk')⟩
  | waiting i k =>
      obtain ⟨k', m, hcall, ⟨hk, hq, ha⟩ | ⟨r, hk, hq, ha⟩ | ⟨hk, hq, ha, m₀, hm₀⟩⟩ := hphase
      · obtain rfl : q = posted ++ [(i, m)] := hq
        cases posted with
        | cons x posted => exact Or.inl (hread rfl (hposted x List.mem_cons_self))
        | nil =>
            -- the call is answered as at `d`
            obtain rfl : d.1 = k' := hk
            obtain ⟨-, _, _, s', -, -, -, hs', -⟩ := hJ.answer hd he hcall (hobs i)
            exact Or.inl ⟨_, .step (.serve (hfirst i) hs')⟩
      · obtain rfl : a = [(i, r)] := ha
        exact Or.inl ⟨_, .step (.receive (hfirst i))⟩
      · obtain rfl : q = posted := hq
        obtain rfl : a = [] := ha
        cases q with
        | cons x q => exact Or.inl (hread rfl (hposted x List.mem_cons_self))
        | nil => exact Or.inr (Or.inl ⟨i, m₀, ⟨⟨k, rfl⟩, rfl, rfl⟩, hm₀⟩)

end Joining

/-! ## A call that is lost -/

/-- Nothing is posted to `i`, and the first call to it is in `B`; behind it nothing is demanded. -/
def Demand.upTo (i : ι) (B : μ → Prop) : Demand ι μ where
  call j m X := if j = i then B m else X
  post j _ X := j ≠ i ∧ X
  call_mono {j m X Y} h hcall := by
    by_cases hj : j = i
    · rwa [if_pos hj] at hcall ⊢
    · rw [if_neg hj] at hcall ⊢
      exact h hcall
  post_mono h := And.imp_right h

/-- The move sends a message to `i`. -/
def Move.To (i : ι) : Move ι μ κ → Prop
  | .post j _ _ | .call j _ _ => j = i
  | .tick _ | .halt => False

/-- A step of the direct run without a message to servers in `X`. -/
def Direct.Aside (move : κ → Move ι μ κ) (serve : σ → μ → Option (σ × Option μ)) (X : ι → Prop) (d d' : κ × (ι → σ)) : Prop :=
  Direct.Step move serve d d' ∧ ∀ i, X i → ¬(move d.1).To i

/-- The first call to `i`, when such a call is demanded. -/
theorem Direct.Ends.first {B : μ → Prop} (he : Direct.Ends move serve n d e) (hK : ∀ k, K k → (move k).Meets (.upTo i B) K)
    (hd : K d.1) (hend : ¬K e.1) : ∃ d₁ m k, Relation.ReflTransGen (Direct.Aside move serve (· = i)) d d₁ ∧
      move d₁.1 = .call i m k ∧ B m := by
  induction he with
  | halt => exact absurd hd hend
  | @step n d d' e h _ ih =>
      have hmove := hK _ hd
      have hnext : K d'.1 → (∀ j, j = i → ¬(move d.1).To j) → ∃ d₁ m k,
          Relation.ReflTransGen (Direct.Aside move serve (· = i)) d d₁ ∧ move d₁.1 = .call i m k ∧ B m := fun hd' haside => by
        obtain ⟨d₁, m, k, hsteps, hcall, hm⟩ := ih hd' hend
        exact ⟨d₁, m, k, .head ⟨h, haside⟩ hsteps, hcall, hm⟩
      cases h with
      | tick hk =>
          rw [hk] at hmove hnext
          exact hnext hmove fun _ _ hto => hto
      | post hk _ =>
          rw [hk] at hmove hnext
          exact hnext hmove.2 fun _ hj hto => hmove.1 (hto.trans hj)
      | @call k k' S j m r s hk _ =>
          rw [hk] at hmove hnext
          by_cases hj : j = i
          · subst hj
            exact ⟨_, m, k', .refl, hk, by simpa [Move.Meets, Demand.upTo] using hmove⟩
          · have hmove : ∀ r, K (k' r) := by simpa [Move.Meets, Demand.upTo, hj] using hmove
            exact hnext (hmove r) fun _ hl hto => hj (hto.trans hl)

/-- The last request is served, with requests to others before it. -/
theorem Net.Step.last {p : Phase ι μ κ} {q a : List (ι × μ)} (hq : ∀ x ∈ q, x.1 ≠ i) (hs : serve (S i) m = some (s, r)) :
    Net.Step move serve ⟨p, S, q ++ [(i, m)], a⟩ ⟨p, Function.update S i s, q, a ++ (r.map (i, ·)).toList⟩ := by
  have h : Net.Step move serve ⟨p, S, q ++ (i, m) :: [], a⟩ ⟨p, Function.update S i s, q ++ [], a ++ (r.map (i, ·)).toList⟩ :=
    .serve hq hs
  rwa [List.append_nil] at h

/-- The network follows a step of the direct run, with requests in flight to servers that take no part in it. -/
theorem Direct.Aside.follow {X : ι → Prop} {q : List (ι × μ)} (h : Direct.Aside move serve X d d') (hq : ∀ x ∈ q, X x.1)
    (hS : ∀ j, ¬X j → S j = d.2 j) : ∃ S', (∀ j, X j → S' j = S j) ∧ (∀ j, ¬X j → S' j = d'.2 j) ∧
      Relation.ReflTransGen (Net.Step move serve) ⟨.ready d.1, S, q, []⟩ ⟨.ready d'.1, S', q, []⟩ := by
  obtain ⟨hstep, hX⟩ := h
  -- a message to `j` is served at once
  have hserved : ∀ {j : ι} {T : ι → σ} (t : σ), ¬X j → (∀ l, ¬X l → S l = T l) →
      (∀ l, X l → Function.update S j t l = S l) ∧ ∀ l, ¬X l → Function.update S j t l = Function.update T j t l := by
    intro j T t hj hT
    refine ⟨fun l hl => Function.update_of_ne (fun hlj : l = j => hj (hlj ▸ hl)) t S, fun l hl => ?_⟩
    by_cases hlj : l = j
    · subst hlj
      rw [Function.update_self, Function.update_self]
    · rw [Function.update_of_ne hlj, Function.update_of_ne hlj, hT l hl]
  have hothers : ∀ {j}, ¬X j → ∀ x ∈ q, x.1 ≠ j := fun hj x hx hxj => hj (hxj ▸ hq x hx)
  cases hstep with
  | tick hk => exact ⟨S, fun _ _ => rfl, hS, .single (.tick hk)⟩
  | @post k k' T j m t hk hserve =>
      have hj : ¬X j := fun hj => hX j hj (by rw [hk]; rfl)
      obtain ⟨hkeep, hnew⟩ := hserved t hj hS
      have hserve' : serve (S j) m = some (t, none) := by rwa [hS j hj]
      exact ⟨_, hkeep, hnew, (Relation.ReflTransGen.single (.post hk)).tail (.last (hothers hj) hserve')⟩
  | @call k k' T j m r t hk hserve =>
      have hj : ¬X j := fun hj => hX j hj (by rw [hk]; rfl)
      obtain ⟨hkeep, hnew⟩ := hserved t hj hS
      have hserve' : serve (S j) m = some (t, some r) := by rwa [hS j hj]
      have hfirst : ∀ x ∈ ([] : List (ι × μ)), x.1 ≠ j := by simp
      exact ⟨_, hkeep, hnew,
        ((Relation.ReflTransGen.single (.call hk)).tail (.last (hothers hj) hserve')).tail (.receive hfirst)⟩

theorem Direct.Aside.follows {X : ι → Prop} {q : List (ι × μ)} (h : Relation.ReflTransGen (Direct.Aside move serve X) d d')
    (hq : ∀ x ∈ q, X x.1) (hS : ∀ j, ¬X j → S j = d.2 j) : ∃ S', (∀ j, X j → S' j = S j) ∧ (∀ j, ¬X j → S' j = d'.2 j) ∧
      Relation.ReflTransGen (Net.Step move serve) ⟨.ready d.1, S, q, []⟩ ⟨.ready d'.1, S', q, []⟩ := by
  induction h with
  | refl => exact ⟨S, fun _ _ => rfl, hS, .refl⟩
  | tail _ hstep ih =>
      obtain ⟨S₁, hkeep₁, hS₁, hsteps₁⟩ := ih
      obtain ⟨S₂, hkeep₂, hS₂, hsteps₂⟩ := hstep.follow hq hS₁
      exact ⟨S₂, fun j hj => (hkeep₂ j hj).trans (hkeep₁ j hj), hS₂, hsteps₁.trans hsteps₂⟩

namespace Joining

theorem Run.steps (h : Joining.Run move serve join l c c') {c'' : Net ι μ σ κ}
    (hs : Relation.ReflTransGen (Joining.Step move serve join) c' c'') : ∃ l', Joining.Run move serve join l' c c'' := by
  induction hs with
  | refl => exact ⟨l, h⟩
  | tail _ hstep ih =>
      obtain ⟨l', hrun⟩ := ih
      exact ⟨l' + 1, hrun.snoc hstep⟩

/-- A call that is received as one with a message posted before it is lost, when that message is read as if it came alone. -/
theorem lost {d₁ d₂ : κ × (ι → σ)} {k : κ} {k' : μ → κ} {m' x : μ} {s' : σ}
    (h₁ : Relation.ReflTransGen (Direct.Step move serve) d d₁) (hpost : move d₁.1 = .post i m k)
    (h₂ : Relation.ReflTransGen (Direct.Aside move serve (· = i)) (k, Function.update d₁.2 i s) d₂)
    (hcall : move d₂.1 = .call i m' k') (hjoin : join m m' = some x) (hx : serve (d₁.2 i) x = some (s', none)) :
    ∃ l c, Joining.Run move serve join l (.start d) c ∧ c.Lost i := by
  have hplain : Relation.ReflTransGen (Direct.Aside move serve fun _ => False) d d₁ :=
    Relation.ReflTransGen.mono (fun _ _ hstep => ⟨hstep, fun _ hfalse => hfalse.elim⟩) _ _ h₁
  have hempty : ∀ y ∈ ([] : List (ι × μ)), False := by simp
  obtain ⟨S₁, -, hS₁, hsteps₁⟩ := Direct.Aside.follows (S := d.2) hplain hempty fun _ _ => rfl
  obtain rfl : S₁ = d₁.2 := funext fun j => hS₁ j id
  have hone : ∀ y ∈ [(i, m)], y.1 = i := fun y hy => List.mem_singleton.mp hy ▸ rfl
  obtain ⟨S₂, hkeep, -, hsteps₂⟩ := Direct.Aside.follows (S := d₁.2) h₂ hone fun j hj => (Function.update_of_ne hj s d₁.2).symm
  have hjoined : ∀ {c c'}, Relation.ReflTransGen (Net.Step move serve) c c' →
      Relation.ReflTransGen (Joining.Step move serve join) c c' := fun h => Relation.ReflTransGen.mono (fun _ _ => .step) _ _ h
  have hnone : ∀ y ∈ ([] : List (ι × μ)), y.1 ≠ i := by simp
  have hread : serve (S₂ i) x = some (s', none) := by rwa [hkeep i rfl]
  -- both requests lie in the channel, and then they are one
  have hto := ((hjoined hsteps₁).tail (.step (.post hpost))).trans (hjoined hsteps₂)
  have hone : Joining.Step move serve join ⟨.waiting i k', S₂, [(i, m), (i, m')], []⟩ ⟨.waiting i k', S₂, [] ++ [(i, x)], []⟩ :=
    @Step.requests _ _ _ _ _ move serve join (.waiting i k') S₂ [] [] [] [] i m m' x hnone hjoin
  have hlost := ((hto.tail (.step (.call hcall))).tail hone).tail (.step (.last hnone hread))
  obtain ⟨l, hrun⟩ := Run.steps .nil hlost
  exact ⟨l, _, hrun, ⟨k', rfl⟩, rfl, rfl⟩

end Joining

end Network
