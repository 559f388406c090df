import DistRocks.Base.Spans
import DistRocks.Control.Impl
import DistRocks.Store.Node

/-!
# A cluster as nodes and intervals

* `View` : what each node holds, and the interval under which it is filed; `Placed n V` : nodes `0 .. n-1` are filed in
  the order of their numbers and hold keys of their intervals only;
* `Change` : the steps of the protocol that change something; `View.after` : a view after a list of them;
* `userPlan`, `movePlan` : the changes of one `put` or `del` and of one migration, in the order of the messages;
  `Allowed` : what may follow a mark in the history;
* `Allowed.legal` : no record is logged over another, every commit finds one, and every interval fits its gap;
* `Allowed.placed` : a complete plan leaves the nodes placed.
-/

namespace DistRocks

@[ext] structure View where
  node : ℕ → Node
  table : Spans Bytes

/-- The nodes `0 .. n-1` in their intervals. -/
structure Placed (n : ℕ) (V : View) : Prop where
  filled : ∀ j, (∃ s, V.table.span j = some s) ↔ j < n
  quiet : ∀ {j}, j < n → (V.node j).pending = none
  within : ∀ {j s}, V.table.span j = some s → ∀ e ∈ (V.node j).data.entries, s.1 ≤ e.1 ∧ e.1 ≤ s.2
  stored : ∀ {j}, j < n → ∀ e ∈ (V.node j).data.entries, e.1 ≠ [] ∧ (Log.mk .put e.1 e.2).Carried
  sound : ∀ {j s}, V.table.span j = some s → (ControlMeta.mk s.1 s.2 j).Sound

/-- A step that changes a node or the table. -/
inductive Change
  | log (j : ℕ) (r : Log)
  | commit (j : ℕ)
  | unfile (i : ℕ)
  | file (i : ℕ) (s : Bytes × Bytes)

namespace View

noncomputable def change (V : View) : Change → View
  | .log j r => { V with node := Function.update V.node j { V.node j with pending := some r } }
  | .commit j => { V with node := Function.update V.node j (V.node j).commit }
  | .unfile i => { V with table := V.table.erase i }
  | .file i s => { V with table := V.table.put i s }

@[simp] theorem node_change_log (V : View) (j : ℕ) (r : Log) :
    (V.change (.log j r)).node = Function.update V.node j { V.node j with pending := some r } := rfl

@[simp] theorem node_change_commit (V : View) (j : ℕ) :
    (V.change (.commit j)).node = Function.update V.node j (V.node j).commit := rfl

@[simp] theorem node_change_unfile (V : View) (i : ℕ) : (V.change (.unfile i)).node = V.node := rfl

@[simp] theorem node_change_file (V : View) (i : ℕ) (s : Bytes × Bytes) : (V.change (.file i s)).node = V.node := rfl

@[simp] theorem table_change_log (V : View) (j : ℕ) (r : Log) : (V.change (.log j r)).table = V.table := rfl

@[simp] theorem table_change_commit (V : View) (j : ℕ) : (V.change (.commit j)).table = V.table := rfl

@[simp] theorem table_change_unfile (V : View) (i : ℕ) : (V.change (.unfile i)).table = V.table.erase i := rfl

@[simp] theorem table_change_file (V : View) (i : ℕ) (s : Bytes × Bytes) :
    (V.change (.file i s)).table = V.table.put i s := rfl

noncomputable def after (V : View) (cs : List Change) : View := cs.foldl change V

@[simp] theorem after_nil (V : View) : V.after [] = V := rfl

@[simp] theorem after_cons (V : View) (c : Change) (cs : List Change) : V.after (c :: cs) = (V.change c).after cs := rfl

@[simp] theorem after_append (V : View) (cs cs' : List Change) : V.after (cs ++ cs') = (V.after cs).after cs' :=
  List.foldl_append

end View

/-- The records that are filed can be written to a buffer and read back. -/
def Change.Sound : Change → Prop
  | .file i s => (ControlMeta.mk s.1 s.2 i).Sound
  | _ => True

/-- The view can take the change: a record goes into an empty log, a commit finds one, an interval fits its gap. -/
def Change.Legal (V : View) : Change → Prop
  | .log j r => (V.node j).pending = none ∧ r.Storable
  | .commit j => (V.node j).pending ≠ none
  | .unfile i => ∃ s, V.table.span i = some s
  | .file i s => V.table.span i = none ∧ V.table.Fits i s

/-- Every change of the list is legal when it comes. -/
def LegalPath : View → List Change → Prop
  | _, [] => True
  | V, c :: cs => c.Legal V ∧ LegalPath (V.change c) cs

theorem legalPath_append {V : View} {cs cs' : List Change} :
    LegalPath V (cs ++ cs') ↔ LegalPath V cs ∧ LegalPath (V.after cs) cs' := by
  induction cs generalizing V with
  | nil => simp [LegalPath]
  | cons c cs ih => simp only [List.cons_append, LegalPath, ih, View.after_cons, and_assoc]

/-! ## Plans -/

/-- The interval after a user's record: it takes in the key, and its lower end moves for a `PUT` only. -/
def Log.widen (r : Log) (s : Bytes × Bytes) : Bytes × Bytes :=
  (if r.kind = .delete then s.1 else min s.1 r.key, max s.2 r.key)

/-- The changes of one `put` or `del` on node `i` with the interval `s`. -/
def userPlan (i : ℕ) (r : Log) (s : Bytes × Bytes) : List Change :=
  [.log i r, .unfile i, .file i (r.widen s), .commit i]

/-- The changes of one migration of the pair `k`, `v` out of node `i`. -/
def movePlan (V : View) (pass : Pass) (i : ℕ) (k v : Bytes) : List Change :=
  let p := pass.peer i
  [.log i ⟨.delete, k, []⟩, .log p ⟨.put, k, v⟩, .unfile i, .file i (keyEnds ((V.node i).data.erase k)), .unfile p,
    .file p (keyEnds ((V.node p).data.insert k v)), .commit i, .commit p]

namespace Pass

/-- The entry that a pass moves. -/
def extreme? : Pass → OrdMap Bytes Bytes → Option (Bytes × Bytes)
  | forward, m => m.last?
  | backward, m => m.first?

/-- Node `i` and its neighbour in the pass are both there. -/
def Adjacent (n i : ℕ) : Pass → Prop
  | forward => i + 1 < n
  | backward => 0 < i ∧ i < n

theorem Adjacent.lt {pass : Pass} {n i : ℕ} (h : pass.Adjacent n i) : i < n := by
  cases pass with
  | forward => exact Nat.lt_of_succ_lt h
  | backward => exact h.2

theorem Adjacent.peer_lt {pass : Pass} {n i : ℕ} (h : pass.Adjacent n i) : pass.peer i < n := by
  cases pass with
  | forward => exact h
  | backward => exact (Nat.sub_le i 1).trans_lt h.2

theorem Adjacent.peer_ne {pass : Pass} {n i : ℕ} (h : pass.Adjacent n i) : pass.peer i ≠ i := by
  cases pass with
  | forward => exact Nat.succ_ne_self i
  | backward => exact (Nat.sub_lt h.1 Nat.one_pos).ne

theorem mem_of_extreme? {pass : Pass} {m : OrdMap Bytes Bytes} {e : Bytes × Bytes} (h : pass.extreme? m = some e) :
    e ∈ m.entries := by
  cases pass with
  | forward => exact (OrdMap.last?_eq_some.mp h).1
  | backward => exact (OrdMap.first?_eq_some.mp h).1

end Pass

/-- A migration can start: there is a neighbour, and the pair is not the only one. -/
structure Movable (n : ℕ) (pass : Pass) (i : ℕ) (k v : Bytes) (V : View) : Prop where
  adjacent : pass.Adjacent n i
  picked : pass.extreme? (V.node i).data = some (k, v)
  two : 2 ≤ (V.node i).data.entries.length

/-- The interval of node `i` is where the search for `k` ends. -/
structure Routed (V : View) (k : Bytes) (i : ℕ) (s : Bytes × Bytes) : Prop where
  span : V.table.span i = some s
  above : ∀ {j t}, j < i → V.table.span j = some t → t.2 < k
  below : ∀ {j t}, i < j → V.table.span j = some t → k < t.1
  floor : s.1 ≤ k ∨ ∀ j < i, V.table.span j = none

/-- The search ends at one interval. -/
theorem Routed.eq {V : View} {k : Bytes} {i j : ℕ} {s t : Bytes × Bytes} (h : Routed V k i s) (h' : Routed V k j t) :
    i = j := by
  have hgo : ∀ {i j s t}, Routed V k i s → Routed V k j t → ¬i < j := fun h h' hij => by
    rcases h'.floor with hle | hnone
    · exact absurd hle (h.below hij h'.span).not_ge
    · have hi := h.span
      rw [hnone _ hij] at hi
      cases hi
  exact le_antisymm (not_lt.mp (hgo h' h)) (not_lt.mp (hgo h h'))

/-- The plans that may follow a mark. -/
inductive Allowed (n : ℕ) (V : View) : Act → List Change → Prop
  | user {i : ℕ} {r : Log} {s : Bytes × Bytes} (hkey : r.key ≠ []) (hr : r.Carried) (hroute : Routed V r.key i s) :
      Allowed n V .command (userPlan i r s)
  | move {pass : Pass} {i : ℕ} {k v : Bytes} (hmove : Movable n pass i k v V) :
      Allowed n V (.iteration pass i) (movePlan V pass i k v)

/-- A new node and a new interval under the number `i`. -/
theorem Placed.update {n i : ℕ} {V : View} {s : Bytes × Bytes} {nd : Node} (hV : Placed n V) (hi : i < n)
    (hfit : V.table.Fits i s) (hquiet : nd.pending = none)
    (hwithin : ∀ e ∈ nd.data.entries, s.1 ≤ e.1 ∧ e.1 ≤ s.2)
    (hstored : ∀ e ∈ nd.data.entries, e.1 ≠ [] ∧ (Log.mk .put e.1 e.2).Carried)
    (hsound : (ControlMeta.mk s.1 s.2 i).Sound) :
    Placed n ⟨Function.update V.node i nd, V.table.set i s hfit⟩ where
  filled j := by
    by_cases hj : j = i
    · simp [hj, hi]
    · simpa [hj] using hV.filled j
  quiet {j} hj := by
    by_cases hji : j = i
    · simpa [hji] using hquiet
    · simpa [hji] using hV.quiet hj
  within {j t} ht := by
    by_cases hji : j = i
    · subst hji
      obtain rfl : s = t := by simpa using ht
      simpa using hwithin
    · simpa [hji] using hV.within (by simpa [hji] using ht)
  stored {j} hj := by
    by_cases hji : j = i
    · simpa [hji] using hstored
    · simpa [hji] using hV.stored hj
  sound {j t} ht := by
    by_cases hji : j = i
    · subst hji
      obtain rfl : s = t := by simpa using ht
      exact hsound
    · exact hV.sound (by simpa [hji] using ht)

/-! ## The user's plan -/

section User
variable {n i : ℕ} {V : View} {r : Log} {s : Bytes × Bytes} {k : Bytes}

theorem Placed.lt_of_span (hV : Placed n V) {j : ℕ} {t : Bytes × Bytes} (h : V.table.span j = some t) : j < n :=
  (hV.filled j).mp ⟨t, h⟩

theorem Routed.fits (h : Routed V r.key i s) : V.table.Fits i (r.widen s) := by
  have hs := V.table.bounds h.span
  have hlo : (r.widen s).1 ≤ s.1 := by
    rw [Log.widen]
    split_ifs
    · exact le_rfl
    · exact min_le_left _ _
  refine ⟨hlo.trans (hs.trans (le_max_left _ _)), fun {j t} hj ht => ?_, fun {j t} hj ht => ?_⟩
  · have hst := V.table.apart hj ht h.span
    rw [Log.widen]
    split_ifs
    · exact hst
    · exact lt_min hst (h.above hj ht)
  · exact max_lt (V.table.apart hj h.span ht) (h.below hj ht)

theorem node_after_user : (V.after (userPlan i r s)).node =
    Function.update V.node i ⟨r.apply (V.node i).data, r.resize (V.node i).data (V.node i).size, none⟩ := by
  simp [userPlan, View.change, Node.commit]

theorem table_after_user (h : V.table.Fits i (r.widen s)) :
    (V.after (userPlan i r s)).table = V.table.set i (r.widen s) h := by
  simp only [userPlan, View.after_cons, View.after_nil, View.change, Spans.put_eq h.erase, Spans.set_erase h]

theorem Routed.legal (hV : Placed n V) (h : Routed V r.key i s) (hr : r.Storable) : LegalPath V (userPlan i r s) := by
  have hquiet := hV.quiet (hV.lt_of_span h.span)
  refine ⟨⟨hquiet, hr⟩, ⟨s, h.span⟩, ⟨?_, ?_⟩, ?_, trivial⟩
  · simp [View.change]
  · exact h.fits.erase
  · simp [Change.Legal, View.change]

/-- The key of a record lies in the widened interval, unless it is only deleted. -/
theorem Log.mem_widen (r : Log) {s e : Bytes × Bytes} {data : OrdMap Bytes Bytes}
    (hdata : ∀ e ∈ data.entries, s.1 ≤ e.1 ∧ e.1 ≤ s.2) (he : e ∈ (r.apply data).entries) :
    (r.widen s).1 ≤ e.1 ∧ e.1 ≤ (r.widen s).2 := by
  rcases Log.mem_apply he with ⟨hk, rfl⟩ | he
  · simp [Log.widen, hk]
  · obtain ⟨hlo, hhi⟩ := hdata e he
    refine ⟨?_, hhi.trans (le_max_left _ _)⟩
    rw [Log.widen]
    split_ifs
    · exact hlo
    · exact (min_le_left _ _).trans hlo

end User

/-! ## The plan of a migration -/

section Move
variable {n i : ℕ} {V : View} {pass : Pass} {k v : Bytes}

namespace Movable

variable (h : Movable n pass i k v V)
include h

theorem mem : (k, v) ∈ (V.node i).data.entries := Pass.mem_of_extreme? h.picked

/-- Something stays behind. -/
theorem source_ne_nil : ((V.node i).data.erase k).entries ≠ [] := fun h0 => by
  have hlen := OrdMap.length_erase h.mem
  rw [h0, List.length_nil] at hlen
  have := h.two
  omega

end Movable

theorem Placed.exists_span (hV : Placed n V) {j : ℕ} (hj : j < n) : ∃ s, V.table.span j = some s := (hV.filled j).mpr hj

theorem source_fits (hV : Placed n V) (h : Movable n pass i k v V) :
    V.table.Fits i (keyEnds ((V.node i).data.erase k)) := by
  obtain ⟨s, hs⟩ := hV.exists_span h.adjacent.lt
  obtain ⟨⟨e, he, hlo⟩, ⟨e', he', hhi⟩⟩ := exists_mem_keyEnds h.source_ne_nil
  refine Spans.fits_of_subset hs ?_ (keyEnds_le h.source_ne_nil) ?_
  · rw [hlo]
    exact (hV.within hs e (OrdMap.mem_erase.mp he).2).1
  · rw [hhi]
    exact (hV.within hs e' (OrdMap.mem_erase.mp he').2).2

/-- The moved key lies between what stays in the source and the target. -/
theorem forward_source_lt (h : Movable n .forward i k v V) : (keyEnds ((V.node i).data.erase k)).2 < k := by
  obtain ⟨-, ⟨e, he, heq⟩⟩ := exists_mem_keyEnds h.source_ne_nil
  obtain ⟨hne, he⟩ := OrdMap.mem_erase.mp he
  rw [heq]
  exact ((OrdMap.last?_eq_some.mp h.picked).2 e he).lt_of_ne hne

theorem backward_lt_source (h : Movable n .backward i k v V) : k < (keyEnds ((V.node i).data.erase k)).1 := by
  obtain ⟨⟨e, he, heq⟩, -⟩ := exists_mem_keyEnds h.source_ne_nil
  obtain ⟨hne, he⟩ := OrdMap.mem_erase.mp he
  rw [heq]
  exact ((OrdMap.first?_eq_some.mp h.picked).2 e he).lt_of_ne' hne

/-- With the source narrowed, the intervals below the target end below what it holds and below the moved key. -/
theorem peer_below (hV : Placed n V) (h : Movable n pass i k v V) {t u : Bytes × Bytes} {j : ℕ} (hj : j < pass.peer i)
    (ht : V.table.span (pass.peer i) = some t) (hu : (V.table.set i _ (source_fits hV h)).span j = some u) :
    u.2 < t.1 ∧ u.2 < k := by
  obtain ⟨s, hs⟩ := hV.exists_span h.adjacent.lt
  by_cases hji : j = i
  · subst hji
    obtain rfl : keyEnds ((V.node j).data.erase k) = u := by simpa using hu
    cases pass with
    | forward => exact ⟨(source_fits hV h).below (Nat.lt_succ_self j) ht, forward_source_lt h⟩
    | backward => exact absurd hj (Nat.sub_le j 1).not_gt
  · rw [Spans.span_set_of_ne _ hji] at hu
    have hlt : j < i := by
      cases pass with
      | forward => exact lt_of_le_of_ne (Nat.lt_succ_iff.mp hj) hji
      | backward => exact hj.trans_le (Nat.sub_le i 1)
    exact ⟨V.table.apart hj hu ht, (V.table.apart hlt hu hs).trans_le (hV.within hs _ h.mem).1⟩

theorem peer_above (hV : Placed n V) (h : Movable n pass i k v V) {t u : Bytes × Bytes} {j : ℕ} (hj : pass.peer i < j)
    (ht : V.table.span (pass.peer i) = some t) (hu : (V.table.set i _ (source_fits hV h)).span j = some u) :
    t.2 < u.1 ∧ k < u.1 := by
  obtain ⟨s, hs⟩ := hV.exists_span h.adjacent.lt
  by_cases hji : j = i
  · subst hji
    obtain rfl : keyEnds ((V.node j).data.erase k) = u := by simpa using hu
    cases pass with
    | forward => exact absurd hj (Nat.le_succ j).not_gt
    | backward => exact ⟨(source_fits hV h).above (Nat.sub_lt h.adjacent.1 Nat.one_pos) ht, backward_lt_source h⟩
  · rw [Spans.span_set_of_ne _ hji] at hu
    have hlt : i < j := by
      cases pass with
      | forward => exact (Nat.lt_succ_self i).trans hj
      | backward =>
          have := h.adjacent.1
          simp only [Pass.peer] at hj
          omega
    exact ⟨V.table.apart hj ht hu, (hV.within hs _ h.mem).2.trans_lt (V.table.apart hlt hs hu)⟩

theorem target_fits (hV : Placed n V) (h : Movable n pass i k v V) :
    (V.table.set i _ (source_fits hV h)).Fits (pass.peer i)
      (keyEnds ((V.node (pass.peer i)).data.insert k v)) := by
  obtain ⟨t, ht⟩ := hV.exists_span h.adjacent.peer_lt
  have hins := OrdMap.insert_ne_nil (V.node (pass.peer i)).data k v
  have hold := hV.within ht
  -- both ends of the new interval are the moved key or an old key of the target
  obtain ⟨⟨e, he, hlo⟩, ⟨e', he', hhi⟩⟩ := exists_mem_keyEnds hins
  refine ⟨keyEnds_le hins, fun {j u} hj hu => ?_, fun {j u} hj hu => ?_⟩
  · obtain ⟨hut, huk⟩ := peer_below hV h hj ht hu
    rw [hlo]
    rcases OrdMap.mem_insert.mp he with rfl | ⟨-, he⟩
    · exact huk
    · exact hut.trans_le (hold e he).1
  · obtain ⟨htu, hku⟩ := peer_above hV h hj ht hu
    rw [hhi]
    rcases OrdMap.mem_insert.mp he' with rfl | ⟨-, he'⟩
    · exact hku
    · exact (hold e' he').2.trans_lt htu

theorem node_after_move (h : Movable n pass i k v V) : (V.after (movePlan V pass i k v)).node =
    Function.update (Function.update V.node i
        ⟨(V.node i).data.erase k, (Log.mk .delete k []).resize (V.node i).data (V.node i).size, none⟩) (pass.peer i)
      ⟨(V.node (pass.peer i)).data.insert k v,
        (Log.mk .put k v).resize (V.node (pass.peer i)).data (V.node (pass.peer i)).size, none⟩ := by
  have hne := h.adjacent.peer_ne
  funext j
  by_cases hp : j = pass.peer i
  · subst hp
    simp [movePlan, View.change, Node.commit, Log.apply, hne]
  · by_cases hi : j = i
    · subst hi
      simp [movePlan, View.change, Node.commit, Log.apply, hp]
    · simp [movePlan, View.change, hp, hi]

theorem table_after_move (hV : Placed n V) (h : Movable n pass i k v V) : (V.after (movePlan V pass i k v)).table =
    (V.table.set i _ (source_fits hV h)).set (pass.peer i) _ (target_fits hV h) := by
  simp only [movePlan, View.after_cons, View.after_nil, View.change, Spans.put_eq (source_fits hV h).erase,
    Spans.set_erase (source_fits hV h), Spans.put_eq (target_fits hV h).erase, Spans.set_erase (target_fits hV h)]

theorem legal_move (hV : Placed n V) (h : Movable n pass i k v V) : LegalPath V (movePlan V pass i k v) := by
  have hne := h.adjacent.peer_ne
  obtain ⟨s, hs⟩ := hV.exists_span h.adjacent.lt
  obtain ⟨t, ht⟩ := hV.exists_span h.adjacent.peer_lt
  have hput := (hV.stored h.adjacent.lt _ h.mem).2
  have hdel := hput.delete
  have hsrc := source_fits hV h
  refine ⟨⟨hV.quiet h.adjacent.lt, hdel.toStorable⟩, ⟨?_, hput.toStorable⟩, ⟨s, hs⟩, ⟨?_, ?_⟩, ⟨t, ?_⟩, ⟨?_, ?_⟩, ?_, ?_,
    trivial⟩
  · simpa [View.change, hne] using hV.quiet h.adjacent.peer_lt
  · simp [View.change]
  · exact hsrc.erase
  · simpa [View.change, Spans.put_eq hsrc.erase, hne] using ht
  · simp [View.change]
  · simp only [View.change, Spans.put_eq hsrc.erase, Spans.set_erase hsrc]
    exact (target_fits hV h).erase
  · simp [Change.Legal, View.change, hne.symm]
  · simp [Change.Legal, View.change, hne]

end Move

/-! ## Allowed plans -/

section Allowed
variable {n : ℕ} {V : View} {mark : Act} {p : List Change}

theorem Allowed.legal (hV : Placed n V) (h : Allowed n V mark p) : LegalPath V p := by
  cases h with
  | user hkey hr hroute => exact hroute.legal hV hr.toStorable
  | move hmove => exact legal_move hV hmove

/-- A complete plan leaves the nodes placed. -/
theorem Allowed.placed (hV : Placed n V) (h : Allowed n V mark p) (hsound : ∀ c ∈ p, c.Sound) : Placed n (V.after p) := by
  cases h with
  | @user i r s hkey hr hroute =>
      have hfile : (ControlMeta.mk (r.widen s).1 (r.widen s).2 i).Sound :=
        hsound (.file i (r.widen s)) (by simp [userPlan])
      rw [View.ext (y := ⟨_, _⟩) node_after_user (table_after_user hroute.fits)]
      exact hV.update (hV.lt_of_span hroute.span) hroute.fits rfl
        (fun e he => r.mem_widen (hV.within hroute.span) he) (hr.apply hkey (hV.stored (hV.lt_of_span hroute.span))) hfile
  | @move pass i k v hmove =>
      have hsrc : (ControlMeta.mk (keyEnds ((V.node i).data.erase k)).1 (keyEnds ((V.node i).data.erase k)).2 i).Sound :=
        hsound (.file i _) (by simp [movePlan])
      have hdst : (ControlMeta.mk (keyEnds ((V.node (pass.peer i)).data.insert k v)).1
          (keyEnds ((V.node (pass.peer i)).data.insert k v)).2 (pass.peer i)).Sound :=
        hsound (.file (pass.peer i) _) (by simp [movePlan])
      obtain ⟨hkey, hput⟩ := hV.stored hmove.adjacent.lt _ hmove.mem
      rw [View.ext (y := ⟨_, _⟩) (node_after_move hmove) (table_after_move hV hmove)]
      exact (hV.update hmove.adjacent.lt (source_fits hV hmove) rfl (fun e he => keyEnds_bounds he)
        (hput.delete.apply hkey (hV.stored hmove.adjacent.lt)) hsrc).update hmove.adjacent.peer_lt (target_fits hV hmove)
        rfl (fun e he => keyEnds_bounds he) (hput.apply hkey (hV.stored hmove.adjacent.peer_lt)) hdst

end Allowed

end DistRocks
