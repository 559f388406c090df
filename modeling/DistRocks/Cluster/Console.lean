import DistRocks.Cluster.Crash
import DistRocks.Cluster.Interleaving
import DistRocks.Control.Reader

/-!
# The console

* `Command.Typed` : a command of any kind, whose key if any can be stored; `taken` : the commands before a `quit`;
* `Prompt n data answers w` : the control node waits at its console over nodes that hold the map `data` between them;
* `Prompt.exec`, `Prompt.run` : every command keeps it and answers from the map, `test` and unknown words included;
* `Prompt.resumes` : so does a restart of every process; `sessions` : the console again and again over the databases it
  left, `sessions_eq` : answered like one map;
* `sessions_answers` : so is every text that can be typed there;
* `interleaved_answers` : and in every order of the steps of the control node and the stores.
-/

namespace DistRocks

open ConstValues Network Proc Words

variable {room : ℕ → ℕ} {n : ℕ} {V : View} {O : Origin} {answers : List Bytes} {data : OrdMap Bytes Bytes} {w w' : World}
  {c : Command} {c₀ : Cluster} {cs : List Command}

namespace Command

/-- The keys of `put` and `get` are not empty, and no key has a NUL; a `del` of the empty key is skipped. -/
def Typed : Command → Prop
  | put key _ | get key => key ≠ [] ∧ NulFree key
  | del key => NulFree key
  | quit | test _ | other _ => True

instance decidableTyped (c : Command) : Decidable c.Typed :=
  match c with
  | put key _ | get key => inferInstanceAs (Decidable (key ≠ [] ∧ NulFree key))
  | del key => inferInstanceAs (Decidable (NulFree key))
  | quit | test _ | other _ => inferInstanceAs (Decidable True)

end Command

/-- What a run carries out of the commands. -/
def taken (cs : List Command) : List Command := cs.takeWhile (· ≠ .quit)

/-! ## At the prompt -/

/-- The control node is between two commands, and the nodes hold `data` between them. -/
def Prompt (n : ℕ) (data : OrdMap Bytes Bytes) (answers : List Bytes) (w : World) : Prop :=
  ∃ O V, (∀ a : Act, a.IsMark → O.marks a) ∧ Rest n O answers V w ∧ Holds n V data

theorem Prompt.of_shows (hcount : w.storeNodeCount = n) (href : w.refusals = []) (hans : w.answers = answers)
    (hshows : Shows n w.cluster V) (hV : Placed n V) (hdata : Holds n V data) : Prompt n data answers w := by
  have hvalid : Valid n ⟨.command, V, []⟩ := ⟨hV, fun _ hc => absurd hc List.not_mem_nil, Or.inl rfl⟩
  have hsim : Sim n ⟨⟨.command, V, []⟩, w.history, Act.IsMark⟩ ⟨.command, V, []⟩ answers w :=
    ⟨hcount, href, hans, hshows, [], rfl, .start hvalid⟩
  exact ⟨_, V, fun _ ha => ha, hsim.rest (Or.inl rfl), hdata⟩

theorem Prompt.mark (h : Prompt n data answers w) {H : Fault → World → Prop} :
    Ends (DistRocks.mark .command) w (fun _ w' => Prompt n data answers w') H := by
  obtain ⟨O, V, hO, ⟨σ, hσ, hdone, rfl⟩, hdata⟩ := h
  refine (hσ.mark hdone (a := .command) trivial (hO _ trivial)).mono (fun _ w₁ h₁ => ?_) fun _ _ he => he
  exact ⟨O, σ.view, hO, h₁.1.rest (Or.inl rfl), hdata⟩

/-- A `test` is sent, and leaves the nodes as they are. -/
theorem Sim.testCommand (h : Sim n O ⟨.command, V, []⟩ answers w) (hn : 0 < n) (hdata : Holds n V data) (s : Bytes) :
    Ends (DistRocks.testCommand s) w (fun _ w' => Prompt n data answers w') (fun e _ => e = .overrun) := by
  have hmsg : [TEST, s].flatMap encStr = (Request.test s).message := by simp [Request.message]
  rw [DistRocks.testCommand, assembleStrs_eq, hmsg, ends_bind]
  refine ends_assemble _ (fun b hlen htake => ?_) fun _ => rfl
  have hfd : 0 < w.storeNodeCount := h.count.symm ▸ hn
  rw [Ends, post, get_bind_run, if_pos hfd, htake, StoreImpl.serve_test _ hlen, lift_ok_bind_run]
  have hst : ((w.cluster.stores 0).received (Request.test s).message).Reflects (V.node 0) :=
    (h.shows.stores hn).of_eq rfl rfl
  have hshows := @Sim.shows_exchanged n O _ answers w h 0 _ _ hst
  rw [Stage.view, View.after_nil, Function.update_eq_self] at hshows
  exact .of_shows (V := V) h.count h.refusals h.answered hshows h.valid.placed hdata

/-- The empty key is in no node. -/
theorem Holds.erase_nil (h : Holds n V data) (hV : Placed n V) : Holds n V (data.erase []) := fun k v => by
  rw [OrdMap.get?_erase]
  split_ifs with hk
  · refine ⟨(fun hv => by cases hv), ?_⟩
    rintro ⟨j, hj, hv⟩
    exact absurd hk (hV.stored hj _ (OrdMap.get?_eq_some.mp hv)).1
  · exact h k v

/-- What a command does to the map and prints, `test` and unknown words included. -/
theorem Prompt.exec (F : Type) [Double F] (h : Prompt n data answers w) (hn : 0 < n) (hc : c.Typed) :
    Ends (do DistRocks.mark .command; c.exec F) w
      (fun _ w' => Prompt n (c.asRead.next data) (answers ++ c.answer data) w') (fun e _ => e = .overrun) := by
  obtain ⟨O, V, hO, ⟨σ, hσ, hdone, rfl⟩, hdata⟩ := h
  refine (hσ.mark hdone (a := .command) trivial (hO _ trivial)).bind fun _ w₁ h₁ => ?_
  have hsim := h₁.1
  have hstay : Prompt n data (answers ++ []) w₁ := by
    rw [List.append_nil]
    exact ⟨O, σ.view, hO, hsim.rest (Or.inl rfl), hdata⟩
  by_cases hvalid : c.Valid
  · refine (hsim.exec F (.trivial n) (fun _ _ => hO _ trivial) hn hdata trivial hvalid trivial).mono (fun _ w₂ h₂ => ?_)
      fun e w₂ he => he.sim.1
    obtain ⟨V', hrest, hdata', -⟩ := h₂
    exact ⟨O, V', hO, hrest, hdata'⟩
  · cases c with
    | quit | other _ => exact hstay
    | test s =>
        rw [Command.exec]
        exact (hsim.testCommand hn hdata s).mono (fun _ w₂ h₂ => (List.append_nil answers).symm ▸ h₂) fun _ _ he => he
    | put _ _ | get _ => exact absurd hc hvalid
    | del key =>
        -- only the empty key is not valid, and no node has it
        obtain rfl : key = [] := by
          by_contra hkey
          exact hvalid ⟨hkey, hc⟩
        rw [Command.exec, if_pos rfl]
        exact ⟨O, σ.view, hO, (List.append_nil answers).symm ▸ hsim.rest (Or.inl rfl), hdata.erase_nil hsim.valid.placed⟩

/-- A run carries out the commands before the first `quit`. -/
theorem run_eq (F : Type) [Double F] (hc : c ≠ .quit) (cs : List Command) :
    run F (c :: cs) = (do (do mark .command; c.exec F); run F cs) := by
  rw [bind_assoc]
  cases c with
  | quit => exact absurd rfl hc
  | _ => rfl

/-- A run answers from one map. -/
theorem Prompt.run (F : Type) [Double F] (h : Prompt n data answers w) (hn : 0 < n) (hcs : ∀ c ∈ cs, c.Typed) :
    Ends (DistRocks.run F cs) w
      (fun _ w' => Prompt n (((taken cs).map Command.asRead).foldl Command.next data)
        (answers ++ mapAnswers data ((taken cs).map Command.asRead)) w') (fun e _ => e = .overrun) := by
  induction cs generalizing w data answers with
  | nil => exact (List.append_nil answers).symm ▸ h.mark
  | cons c cs ih =>
      by_cases hquit : c = .quit
      · subst hquit
        exact (List.append_nil answers).symm ▸ h.mark
      · have htaken : taken (c :: cs) = c :: taken cs := by simp [taken, hquit]
        have hanswer : c.asRead.answer data = c.answer data := by cases c <;> rfl
        rw [run_eq F hquit, htaken]
        refine (h.exec F hn (hcs c List.mem_cons_self)).bind fun _ w₁ h₁ => ?_
        refine (ih h₁ fun c' hc' => hcs c' (List.mem_cons_of_mem _ hc')).mono (fun _ w₂ h₂ => ?_) fun _ _ he => he
        rw [List.map_cons, mapAnswers, hanswer, List.foldl_cons, ← List.append_assoc]
        exact h₂

/-! ## Restarts -/

/-- When every process is started again over the databases of `c`, the control node comes to its prompt, unless the block
of its connections is too small. -/
def Resumes (n : ℕ) (data : OrdMap Bytes Bytes) (c : Cluster) : Prop :=
  ∀ room, Connects room n → Ends (construct room n) (World.boot c.reopen) (fun _ w => Prompt n data [] w) fun _ _ => False

/-- The constructor over metadata that is not empty shows what the databases hold, with the sizes counted anew. -/
theorem Shows.boot (hroom : Connects room n) (h : Shows n c₀ V) (hfilled : ∃ j s, V.table.span j = some s) :
    Ends (construct room n) (World.boot c₀.reopen)
      (fun _ w => w.storeNodeCount = n ∧ w.refusals = [] ∧ w.answers = [] ∧
        Shows n w.cluster (V.withSizes fun j => (c₀.reopen.stores j).storeData.size)) fun _ _ => False := by
  obtain ⟨m, hm, hindex⟩ := h.index
  obtain ⟨j, t, ht⟩ := hfilled
  have hne : c₀.reopen.metaDb.getNum ≠ 0 := by
    rw [DBHandle.getNum_eq, show c₀.reopen.metaDb = .reliable m from hm, DBHandle.db_reliable]
    exact (List.length_pos_of_mem (hindex.mem ht)).ne'
  refine (construct_kept hroom hne).mono (fun _ w₁ h₁ => ?_) fun _ _ he => he
  obtain ⟨hcluster, hcount, href, hans⟩ := h₁
  exact ⟨hcount, href, hans, hcluster ▸ h.reopen⟩

theorem Placed.withSizes (hV : Placed n V) (size : ℕ → ℤ) : Placed n (V.withSizes size) :=
  ⟨hV.filled, hV.quiet, hV.within, hV.stored, hV.sound⟩

theorem Placed.resumes (hV : Placed n V) (hdata : Holds n V data) (hn : 0 < n) (h : Shows n c₀ V) : Resumes n data c₀ := by
  refine fun room hroom => (h.boot hroom ⟨0, hV.exists_span hn⟩).mono (fun _ w₁ h₁ => ?_) fun _ _ he => he
  obtain ⟨hcount, href, hans, hshows⟩ := h₁
  exact .of_shows hcount href hans hshows (hV.withSizes _) hdata

/-- Started again at the prompt, the nodes hold what they held. -/
theorem Prompt.resumes (h : Prompt n data answers w) (hn : 0 < n) : Resumes n data w.cluster := by
  obtain ⟨O, V, -, ⟨σ, hσ, hdone, rfl⟩, hdata⟩ := h
  exact (hσ.valid.placed_view hdone).resumes hdata hn hσ.shows

/-- Nothing is stored, and the metadata is to be written. -/
def Cluster.empty : Cluster := ⟨fun _ => .emptyStore, .reliable .empty⟩

theorem resumes_empty (hn : 0 < n) (h9 : n ≤ 9) : Resumes n .empty Cluster.empty := by
  intro room hroom
  have hnew : ∀ j < n, (Cluster.empty.reopen.stores j).storeData = ⟨.reliable .empty, 0⟩ := fun _ _ => rfl
  obtain ⟨hok, hfresh⟩ := fresh_construct hroom hn h9 hnew fun _ _ => rfl
  obtain ⟨V, hsim, hdata, -⟩ := hfresh.sim
  refine Ends.of_run (Prod.ext hok rfl) ?_
  exact .of_shows (V := V) hsim.count hsim.refusals hsim.answered hsim.shows hsim.valid.placed hdata

/-- The constructor and the console over the databases of `c`, every process being started again. -/
def session (F : Type) [Double F] (room : ℕ → ℕ) (n : ℕ) (c : Cluster) (cs : List Command) : Except Fault Unit × World :=
  (construct room n >>= fun _ => run F cs) (World.boot c.reopen)

/-- What the sessions print, one after the other. -/
def sessions (F : Type) [Double F] (room : ℕ → ℕ) (n : ℕ) : Cluster → List (List Command) → Except Fault (List (List Bytes))
  | _, [] => .ok []
  | c, cs :: rest =>
    match session F room n c cs with
    | (.ok _, w) => do return w.answers :: (← sessions F room n w.cluster rest)
    | (.error e, _) => .error e

/-- Every `get` is answered with `lastPut` of the commands before it, in its session and in those before. -/
def sessionPuts (done : List Command) : List (List Command) → List (List Bytes)
  | [] => []
  | cs :: rest => lastPuts done (taken cs) :: sessionPuts (done ++ taken cs) rest

theorem getD_foldl {done : List Command} (h : ∀ key, (data.get? key).getD [] = lastPut key done) (key : Bytes) :
    ((cs.foldl Command.next data).get? key).getD [] = lastPut key (done ++ cs) := by
  induction cs generalizing data done with
  | nil => rw [List.foldl_nil, List.append_nil, h key]
  | cons c cs ih => rw [List.foldl_cons, ih (getD_next h c), List.append_assoc, List.singleton_append]

theorem map_asRead (hcs : ∀ c ∈ cs, c.Plain) : (taken cs).map Command.asRead = taken cs := by
  have hread : ∀ c ∈ taken cs, c.asRead = c := fun c hc => (hcs c (List.takeWhile_subset _ hc)).asRead_eq
  rw [List.map_congr_left hread, List.map_id']

/-- One session over nodes that hold what the commands `done` have left. -/
theorem Resumes.session (F : Type) [Double F] (hroom : Connects room n) (h : Resumes n data c₀) (hn : 0 < n) {done : List Command}
    (hdata : ∀ key, (data.get? key).getD [] = lastPut key done) (hcs : ∀ c ∈ cs, c.Typed ∧ c.Plain) :
    ((DistRocks.session F room n c₀ cs).1 = .ok () ∧ (DistRocks.session F room n c₀ cs).2.answers = lastPuts done (taken cs) ∧
      ∃ data', Resumes n data' (DistRocks.session F room n c₀ cs).2.cluster ∧
        ∀ key, (data'.get? key).getD [] = lastPut key (done ++ taken cs)) ∨
      (DistRocks.session F room n c₀ cs).1 = .error .overrun := by
  have hrun : Ends (construct room n >>= fun _ => DistRocks.run F cs) (World.boot c₀.reopen)
      (fun _ w => Prompt n (((taken cs).map Command.asRead).foldl Command.next data)
        ([] ++ mapAnswers data ((taken cs).map Command.asRead)) w) (fun e _ => e = .overrun) :=
    (Ends.mono (h room hroom) (fun _ _ hp => hp) fun _ _ hfalse => hfalse.elim).bind fun _ w hp =>
      hp.run F hn fun c hc => (hcs c hc).1
  rw [map_asRead fun c hc => (hcs c hc).2, List.nil_append, mapAnswers_eq hdata] at hrun
  rcases hrun.outcome with ⟨a, hok, hprompt⟩ | ⟨e, herr, rfl⟩
  · have hans : ∀ w, Prompt n ((taken cs).foldl Command.next data) (lastPuts done (taken cs)) w →
        w.answers = lastPuts done (taken cs) := by
      rintro w ⟨_, _, _, ⟨_, hσ, -⟩, -⟩
      exact hσ.answered
    exact Or.inl ⟨hok, hans _ hprompt, _, hprompt.resumes hn, getD_foldl hdata⟩
  · exact Or.inr herr

/-- Every `get` of every session prints the value of the last `put` of its key that no `del` follows, in its session or in
those before it. -/
theorem sessions_eq (F : Type) [Double F] (hroom : Connects room n) (h : Resumes n data c₀) (hn : 0 < n) {done : List Command}
    (hdata : ∀ key, (data.get? key).getD [] = lastPut key done) {ss : List (List Command)}
    (hss : ∀ cs ∈ ss, ∀ c ∈ cs, c.Typed ∧ c.Plain) :
    sessions F room n c₀ ss = .ok (sessionPuts done ss) ∨ sessions F room n c₀ ss = .error .overrun := by
  induction ss generalizing c₀ data done with
  | nil => exact Or.inl rfl
  | cons cs ss ih =>
      rcases hs : session F room n c₀ cs with ⟨r, w⟩
      have hsession := h.session F hroom hn hdata (hss cs List.mem_cons_self)
      rw [hs] at hsession
      rcases hsession with ⟨rfl, hans, data', hresumes, hdata'⟩ | rfl
      · rcases ih hresumes hdata' fun cs hcs => hss cs (List.mem_cons_of_mem _ hcs) with hrest | hrest
        · refine Or.inl ?_
          simp only [sessions, hs, hrest, sessionPuts]
          rw [← hans]
          rfl
        · refine Or.inr ?_
          simp only [sessions, hs, hrest]
          rfl
      · refine Or.inr ?_
        simp only [sessions, hs]

/-! ## What is typed -/

theorem readCommand_typed {cin : Bytes} (h : NulFree cin) :
    NulFree (readCommand cin).2 ∧ (readCommand cin).1.Plain ∧
      ((readCommand cin).1.Typed ∨ (readCommand cin).1 = .get [] ∨ (readCommand cin).1 = .put [] []) := by
  have hword : ∀ {cin : Bytes}, NulFree cin → NulFree (readWord isSpace cin).1 ∧ NulFree (readWord isSpace cin).2 :=
    fun h => ⟨fun h0 => h (mem_of_mem_readWord (Or.inl h0)), fun h0 => h (mem_of_mem_readWord (Or.inr h0))⟩
  have h₁ := (hword h).2
  have h₂ := (hword h₁).2
  have hkey : ∀ key : Bytes, NulFree key → (key ≠ [] ∧ NulFree key) ∨ key = [] := fun key hnul => by
    by_cases hnil : key = []
    · exact Or.inr hnil
    · exact Or.inl ⟨hnil, hnul⟩
  rw [readCommand_eq]
  split_ifs
  · exact ⟨h₁, trivial, Or.inl trivial⟩
  · exact ⟨h₂, trivial, Or.inl trivial⟩
  · refine ⟨(hword h₂).2, (hword h₂).1, ?_⟩
    rcases hkey _ (hword h₁).1 with hk | hnil
    · exact Or.inl hk
    · refine Or.inr (Or.inr ?_)
      rw [hnil, readWord_eq_nil hnil]
      rfl
  · exact ⟨h₂, trivial, (hkey _ (hword h₁).1).imp_right fun hnil => Or.inl (congrArg Command.get hnil)⟩
  · exact ⟨h₂, trivial, Or.inl (hword h₁).1⟩
  · exact ⟨h₁, trivial, Or.inl trivial⟩

/-- A text that does not end in the middle of a `put` or `get` holds commands that the console can take. -/
theorem readCommands_typed {cin : Bytes} (h : NulFree cin) (hget : .get [] ∉ readCommands cin)
    (hput : .put [] [] ∉ readCommands cin) : ∀ c ∈ readCommands cin, c.Typed ∧ c.Plain := by
  have hrounds : ∀ fuel cin, NulFree cin → ∀ c ∈ readRounds fuel cin, c.Plain ∧ (c.Typed ∨ c = .get [] ∨ c = .put [] []) := by
    intro fuel
    induction fuel with
    | zero => exact fun _ _ c hc => absurd hc List.not_mem_nil
    | succ fuel ih =>
        intro cin h c hc
        obtain ⟨hrest, hc₁⟩ := readCommand_typed h
        rw [readRounds] at hc
        by_cases hend : cin.dropWhile isSpace = []
        · rw [if_pos hend] at hc
          exact absurd hc List.not_mem_nil
        rw [if_neg hend] at hc
        simp only at hc
        split_ifs at hc
        · exact List.mem_singleton.mp hc ▸ hc₁
        · rcases List.mem_cons.mp hc with rfl | hc
          · exact hc₁
          · exact ih _ hrest c hc
  intro c hc
  obtain ⟨hplain, htyped | rfl | rfl⟩ := hrounds _ cin h c hc
  · exact ⟨htyped, hplain⟩
  · exact absurd hc hget
  · exact absurd hc hput

/-- What is typed in session after session, every process being started again in between, is answered like one map. -/
theorem sessions_answers (F : Type) [Double F] (hroom : Connects room n) (hn : 0 < n) (h9 : n ≤ 9) {texts : List Bytes}
    (htexts : ∀ cin ∈ texts, NulFree cin ∧ .get [] ∉ readCommands cin ∧ .put [] [] ∉ readCommands cin) :
    sessions F room n .empty (texts.map readCommands) = .ok (sessionPuts [] (texts.map readCommands)) ∨
      sessions F room n .empty (texts.map readCommands) = .error .overrun := by
  refine sessions_eq F hroom (resumes_empty hn h9) hn (fun _ => rfl) fun cs hcs => ?_
  obtain ⟨cin, hcin, rfl⟩ := List.mem_map.mp hcs
  obtain ⟨hnul, hget, hput⟩ := htexts cin hcin
  exact readCommands_typed hnul hget hput

/-- A `quit` in the middle, an unknown word, and a second session. -/
def sampleTexts : List Bytes := [text "put a x\ntest hi\nput b y\nquit put a z", text "del b\nshow get a get b\n"]

theorem sessions_sampleTexts :
    sessions ℚ gnuRoom 2 .empty (sampleTexts.map readCommands) = .ok [[], [text "x", []]] := by
  have htexts : ∀ cin ∈ sampleTexts, NulFree cin ∧ .get [] ∉ readCommands cin ∧ .put [] [] ∉ readCommands cin := by decide
  exact (sessions_answers ℚ (by decide) (by decide) (by decide) htexts).resolve_right (by decide +kernel)

/-! ## In any order of steps -/

/-- In whatever order the control node and the stores take their steps, a run ends, and every `get` of it has printed the
value of the last `put` of its key that no `del` follows. -/
theorem interleaved_answers (F : Type) [Double F] (hw : Fresh n w) (hcs : ∀ c ∈ cs, c.Typed ∧ c.Plain)
    (hfit : (run F cs w).1 ≠ .error .overrun) :
    ∃ bound, ∀ l c, Net.Run Script.move StoreImpl.take l (w.net F cs) c → l ≤ bound ∧
      ((∃ c', Net.Step Script.move StoreImpl.take c c') ∨
        ∃ o : Own, c.phase = .ready (.pure (), o) ∧ c.requests = [] ∧ c.replies = [] ∧
          o.answers = lastPuts [] (taken cs)) := by
  obtain ⟨V, hsim, hdata, -⟩ := hw.sim
  have hprompt : Prompt n .empty [] w := .of_shows hsim.count hsim.refusals hsim.answered hsim.shows hsim.valid.placed hdata
  have hrun := hprompt.run F hw.pos fun c hc => (hcs c hc).1
  have hempty : ∀ key, ((OrdMap.empty : OrdMap Bytes Bytes).get? key).getD [] = lastPut key [] := fun _ => rfl
  rw [map_asRead fun c hc => (hcs c hc).2, List.nil_append, mapAnswers_eq hempty] at hrun
  rcases hrun.outcome with ⟨a, hok, _, _, _, ⟨_, hσ, -⟩, -⟩ | ⟨e, herr, rfl⟩
  · obtain ⟨bound, hbound⟩ := run_interleaved F hw.refusals hok
    refine ⟨bound, fun l c hc => ?_⟩
    obtain ⟨hl, -, rfl | hstep⟩ := hbound l c hc
    · exact ⟨hl, Or.inr ⟨_, rfl, rfl, rfl, hσ.answered⟩⟩
    · exact ⟨hl, Or.inl hstep⟩
  · exact absurd herr hfit

theorem interleaved_twoStores :
    ∃ bound, ∀ l c, Net.Run Script.move StoreImpl.take l (twoStores.net ℚ probeCommands) c → l ≤ bound ∧
      ((∃ c', Net.Step Script.move StoreImpl.take c c') ∨
        ∃ o : Own, c.phase = .ready (.pure (), o) ∧ c.requests = [] ∧ c.replies = [] ∧ o.answers = [text "x"]) :=
  interleaved_answers ℚ twoStores_fresh (by decide) (by decide +kernel)

end DistRocks
