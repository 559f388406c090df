import DistRocks.Cluster.Balancing

/-!
# The cluster as one map

* `Holds n V data` : the nodes `0 .. n-1` of the view hold the pairs of one map between them;
* `holds_user`, `holds_move` : a user's plan applies its record to that map, a migration leaves it as it is;
* `Command.Valid` : the commands a run is made of; `Command.next`, `Command.answer` : the console over one map;
  `mapAnswers` : what it prints;
* `lastPut` : the value of the last `put` that no `del` follows; `mapAnswers_eq` : one map answers with it.
-/

namespace DistRocks

variable {n i : ℕ} {V V' : View} {data : OrdMap Bytes Bytes} {k v : Bytes} {s : Bytes × Bytes}

/-! ## Lookups after a record -/

theorem Log.get?_apply_self {r : Log} (hkind : r.kind ≠ .error) (data : OrdMap Bytes Bytes) :
    (r.apply data).get? r.key = if r.kind = .put then some r.value else none := by
  rw [Log.apply]
  cases h : r.kind with
  | error => exact absurd h hkind
  | put => simp [OrdMap.get?_insert]
  | delete => simp [OrdMap.get?_erase]

theorem Log.get?_apply_of_ne {r : Log} (hk : k ≠ r.key) (data : OrdMap Bytes Bytes) :
    (r.apply data).get? k = data.get? k := by
  rw [Log.apply]
  cases r.kind with
  | error => rfl
  | put => simp [OrdMap.get?_insert, hk]
  | delete => simp [OrdMap.get?_erase, hk]

/-! ## One key, one node -/

/-- A key in two nodes would lie in two intervals. -/
theorem Placed.node_unique (hV : Placed n V) {i j : ℕ} {e e' : Bytes × Bytes} (hi : i < n) (hj : j < n)
    (he : e ∈ (V.node i).data.entries) (he' : e' ∈ (V.node j).data.entries) (h : e.1 = e'.1) : i = j := by
  obtain ⟨s, hs⟩ := hV.exists_span hi
  obtain ⟨t, ht⟩ := hV.exists_span hj
  exact Spans.eq_of_mem hs ht (hV.within hs e he) (h ▸ hV.within ht e' he')

/-- A key is nowhere but in the node it is routed to. -/
theorem Routed.get?_eq_none (hV : Placed n V) (h : Routed V k i s) {j : ℕ} (hj : j < n) (hji : j ≠ i) :
    (V.node j).data.get? k = none := by
  obtain ⟨t, ht⟩ := hV.exists_span hj
  refine OrdMap.get?_eq_none.mpr fun v hv => ?_
  obtain ⟨hlo, hhi⟩ := hV.within ht _ hv
  rcases lt_or_gt_of_ne hji with hlt | hgt
  · exact absurd hhi (h.above hlt ht).not_ge
  · exact absurd hlo (h.below hgt ht).not_ge

/-- The nodes hold the map `data` between them. -/
def Holds (n : ℕ) (V : View) (data : OrdMap Bytes Bytes) : Prop :=
  ∀ k v, data.get? k = some v ↔ ∃ j < n, (V.node j).data.get? k = some v

/-- The value of a key is in the node it is routed to. -/
theorem Holds.get?_eq (h : Holds n V data) (hV : Placed n V) (hroute : Routed V k i s) :
    (V.node i).data.get? k = data.get? k := by
  apply Option.ext
  intro v
  rw [h k v]
  constructor
  · exact fun hv => ⟨i, hV.lt_of_span hroute.span, hv⟩
  · rintro ⟨j, hj, hv⟩
    by_cases hji : j = i
    · exact hji ▸ hv
    · rw [hroute.get?_eq_none hV hj hji] at hv
      cases hv

theorem holds_user {r : Log} (h : Holds n V data) (hV : Placed n V) (hkind : r.kind ≠ .error)
    (hroute : Routed V r.key i s) : Holds n (V.after (userPlan i r s)) (r.apply data) := by
  intro k v
  rw [node_after_user]
  by_cases hk : k = r.key
  · subst hk
    rw [r.get?_apply_self hkind]
    constructor
    · exact fun hv => ⟨i, hV.lt_of_span hroute.span, by simpa [r.get?_apply_self hkind] using hv⟩
    · rintro ⟨j, hj, hv⟩
      by_cases hji : j = i
      · subst hji
        simpa [r.get?_apply_self hkind] using hv
      · rw [Function.update_of_ne hji, hroute.get?_eq_none hV hj hji] at hv
        cases hv
  · rw [Log.get?_apply_of_ne hk, h k v]
    refine exists_congr fun j => and_congr_right fun _ => ?_
    by_cases hji : j = i
    · subst hji
      simp [Log.get?_apply_of_ne hk]
    · rw [Function.update_of_ne hji]

/-- A migration moves a pair and loses none. -/
theorem held_move {pass : Pass} (hV : Placed n V) (hmove : Movable n pass i k v V) (k' v' : Bytes) :
    (∃ j < n, ((V.after (movePlan V pass i k v)).node j).data.get? k' = some v') ↔
      ∃ j < n, (V.node j).data.get? k' = some v' := by
  have hne := hmove.adjacent.peer_ne
  rw [node_after_move hmove]
  by_cases hk : k' = k
  · subst hk
    -- before and after, one node has the moved key
    constructor
    · rintro ⟨j, hj, hv⟩
      refine ⟨i, hmove.adjacent.lt, ?_⟩
      by_cases hp : j = pass.peer i
      · subst hp
        rw [Function.update_self, OrdMap.get?_insert, if_pos rfl] at hv
        rw [← hv]
        exact OrdMap.get?_eq_some.mpr hmove.mem
      · rw [Function.update_of_ne hp] at hv
        by_cases hi : j = i
        · subst hi
          rw [Function.update_self, OrdMap.get?_erase, if_pos rfl] at hv
          cases hv
        · rw [Function.update_of_ne hi] at hv
          exact absurd (hV.node_unique hj hmove.adjacent.lt (OrdMap.get?_eq_some.mp hv) hmove.mem rfl) hi
    · rintro ⟨j, hj, hv⟩
      have hmem := OrdMap.get?_eq_some.mp hv
      obtain rfl := hV.node_unique hj hmove.adjacent.lt hmem hmove.mem rfl
      obtain rfl := OrdMap.eq_of_mem hmem hmove.mem
      exact ⟨pass.peer j, hmove.adjacent.peer_lt, by simp [OrdMap.get?_insert]⟩
  · refine exists_congr fun j => and_congr_right fun _ => ?_
    by_cases hp : j = pass.peer i
    · subst hp
      simp [OrdMap.get?_insert, hk]
    · rw [Function.update_of_ne hp]
      by_cases hi : j = i
      · subst hi
        simp [OrdMap.get?_erase, hk]
      · rw [Function.update_of_ne hi]

theorem holds_move {pass : Pass} (h : Holds n V data) (hV : Placed n V) (hmove : Movable n pass i k v V) :
    Holds n (V.after (movePlan V pass i k v)) data := fun k' v' => (h k' v').trans (held_move hV hmove k' v').symm

theorem Moves.holds {pass : Pass} (hmove : Moves n pass i V V') (hV : Placed n V) (h : Holds n V data) :
    Holds n V' data := by
  obtain ⟨k, v, hmove, -, rfl⟩ := hmove
  exact holds_move h hV hmove

/-- A pass moves pairs and loses none. -/
theorem Sweeps.holds {pass : Pass} {calm : Node → Prop} {is : List ℕ} (hs : Sweeps n pass calm is V V') (hV : Placed n V)
    (h : Holds n V data) : Placed n V' ∧ Holds n V' data :=
  hs.keeps (P := fun V => Holds n V data) (fun hV hmove => hmove.holds hV) hV h

/-! ## The console over one map -/

namespace Command

/-- The commands that the console takes here: keys are not empty and have no NUL. -/
def Valid : Command → Prop
  | put key _ | get key | del key => key ≠ [] ∧ NulFree key
  | _ => False

/-- The values have no NUL. -/
def Plain : Command → Prop
  | put _ value => NulFree value
  | _ => True

/-- The values that arrive are not empty. -/
def Filled : Command → Prop
  | put _ value => cstr value ≠ []
  | _ => True

instance decidableValid (c : Command) : Decidable c.Valid :=
  match c with
  | put key _ | get key | del key => inferInstanceAs (Decidable (key ≠ [] ∧ NulFree key))
  | quit | test _ | other _ => inferInstanceAs (Decidable False)

instance decidablePlain (c : Command) : Decidable c.Plain :=
  match c with
  | put _ value => inferInstanceAs (Decidable (NulFree value))
  | quit | test _ | get _ | del _ | other _ => inferInstanceAs (Decidable True)

instance decidableFilled (c : Command) : Decidable c.Filled :=
  match c with
  | put _ value => inferInstanceAs (Decidable (cstr value ≠ []))
  | quit | test _ | get _ | del _ | other _ => inferInstanceAs (Decidable True)

/-- The request that a command sends to the node of its key. -/
def request : Command → Request
  | put key value => .log ⟨.put, key, value⟩
  | del key => .log ⟨.delete, key, []⟩
  | get key => .get key
  | _ => .quit

/-- The record that a command leaves in the log of that node. -/
def record : Command → Option Log
  | put key value => some ⟨.put, key, cstr value⟩
  | del key => some ⟨.delete, key, []⟩
  | _ => none

/-- The command with the value that arrives, which ends at its first NUL. -/
def asRead : Command → Command
  | put key value => put key (cstr value)
  | c => c

theorem Plain.asRead_eq {c : Command} (h : c.Plain) : c.asRead = c := by
  cases c with
  | put key value => exact congrArg (put key) (NulFree.cstr_eq h)
  | _ => rfl

/-- The map after a command. -/
def next (data : OrdMap Bytes Bytes) : Command → OrdMap Bytes Bytes
  | put key value => data.insert key value
  | del key => data.erase key
  | _ => data

theorem next_asRead {c : Command} {r : Log} (h : c.record = some r) : c.asRead.next data = r.apply data := by
  cases c with
  | put _ _ | del _ =>
      cases h
      rfl
  | _ => cases h

/-- What a command prints. -/
def answer (data : OrdMap Bytes Bytes) : Command → List Bytes
  | get key => [(data.get? key).getD []]
  | _ => []

end Command

/-- What the commands print over one map. -/
def mapAnswers (data : OrdMap Bytes Bytes) : List Command → List Bytes
  | [] => []
  | c :: cs => c.answer data ++ mapAnswers (c.next data) cs

/-- The value of the last `put` of `key` that no `del` of it follows, empty when there is none. -/
def lastPut (key : Bytes) (done : List Command) : Bytes :=
  done.foldl (fun value c => match c with
    | .put k v => if k = key then v else value
    | .del k => if k = key then [] else value
    | _ => value) []

/-- Every `get` is answered with `lastPut` of the commands before it. -/
def lastPuts (done : List Command) : List Command → List Bytes
  | [] => []
  | .get key :: cs => lastPut key done :: lastPuts (done ++ [.get key]) cs
  | c :: cs => lastPuts (done ++ [c]) cs

theorem getD_next {done : List Command} (h : ∀ key, (data.get? key).getD [] = lastPut key done) (c : Command)
    (key : Bytes) : ((c.next data).get? key).getD [] = lastPut key (done ++ [c]) := by
  rw [lastPut, List.foldl_append, ← lastPut, ← h key]
  cases c with
  | put k v =>
      simp only [Command.next, OrdMap.get?_insert, List.foldl_cons, List.foldl_nil, eq_comm (a := key)]
      split_ifs <;> rfl
  | del k =>
      simp only [Command.next, OrdMap.get?_erase, List.foldl_cons, List.foldl_nil, eq_comm (a := key)]
      split_ifs <;> rfl
  | _ => rfl

theorem mapAnswers_eq {done : List Command} (h : ∀ key, (data.get? key).getD [] = lastPut key done) (cs : List Command) :
    mapAnswers data cs = lastPuts done cs := by
  induction cs generalizing data done with
  | nil => rfl
  | cons c cs ih =>
      have hrest := ih (getD_next h c)
      cases c with
      | get key => rw [mapAnswers, lastPuts, hrest, Command.answer, h key]; rfl
      | _ => exact hrest

end DistRocks
