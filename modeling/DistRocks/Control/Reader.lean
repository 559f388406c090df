import DistRocks.Base.Words
import DistRocks.Control.Impl

/-!
# Commands as they are typed

* `readCommands` : what the `cin >>` of the loop of `run` take from a text, up to a `quit` or its end;
* `Command.words` : a command as it is typed; `Command.Worded` : a command that can be typed;
* `readCommands_iff` : the text of these commands, whatever blanks stand between the words and whatever comes behind a
  `quit`, is read as them, and no other text is.
-/

namespace DistRocks

open ConstValues Words

/-- `isspace` -/
def isSpace (b : Byte) : Bool := b = 32 || 9 ≤ b && b ≤ 13

/-- The reads of one round of the loop; at the end of the text a string stays empty. -/
def readCommand (cin : Bytes) : Command × Bytes :=
  let (command, cin) := readWord isSpace cin
  if command = text "quit" then (.quit, cin)
  else if command = TEST then
    let (test_string, cin) := readWord isSpace cin
    (.test test_string, cin)
  else if command = PUT then
    let (key, cin) := readWord isSpace cin
    let (value, cin) := readWord isSpace cin
    (.put key value, cin)
  else if command = GET then
    let (key, cin) := readWord isSpace cin
    (.get key, cin)
  else if command = DEL then
    let (key, cin) := readWord isSpace cin
    (.del key, cin)
  else (.other command, cin)

/-- At most `fuel` rounds. -/
def readRounds : ℕ → Bytes → List Command
  | 0, _ => []
  | fuel + 1, cin =>
    -- behind the last word the loop reads empty commands, which do nothing
    if cin.dropWhile isSpace = [] then []
    else
      let (c, cin) := readCommand cin
      -- `break`
      if c = .quit then [c] else c :: readRounds fuel cin

/-- Every round but the last takes a byte. -/
def readCommands (cin : Bytes) : List Command := readRounds (cin.length + 1) cin

namespace Command

def words : Command → List Bytes
  | quit => [text "quit"]
  | test test_string => [TEST, test_string]
  | put key value => [PUT, key, value]
  | get key => [GET, key]
  | del key => [DEL, key]
  | other command => [command]

/-- The words have a byte each and no blank, and an unknown command is not a known one. -/
def Worded (c : Command) : Prop :=
  (∀ w ∈ c.words, IsWord isSpace w) ∧ match c with
    | other command => command ∉ [text "quit", TEST, PUT, GET, DEL]
    | _ => True

instance decidableWorded (c : Command) : Decidable c.Worded :=
  match c with
  | other command => inferInstanceAs (Decidable ((∀ w ∈ (other command).words, IsWord isSpace w) ∧
      command ∉ [text "quit", TEST, PUT, GET, DEL]))
  | quit | test _ | put _ _ | get _ | del _ => inferInstanceAs (Decidable (_ ∧ True))

end Command

variable {cin rest : Bytes} {c : Command} {cs : List Command} {ws : List Bytes}

/-! ## One command -/

theorem readCommand_eq (cin : Bytes) :
    let w := (readWord isSpace cin).1
    let cin₁ := (readWord isSpace cin).2
    let w₁ := (readWord isSpace cin₁).1
    let cin₂ := (readWord isSpace cin₁).2
    readCommand cin = if w = text "quit" then (.quit, cin₁) else if w = TEST then (.test w₁, cin₂)
      else if w = PUT then (.put w₁ (readWord isSpace cin₂).1, (readWord isSpace cin₂).2)
      else if w = GET then (.get w₁, cin₂) else if w = DEL then (.del w₁, cin₂) else (.other w, cin₁) := rfl

/-- The known commands are told apart. -/
theorem known_ne : TEST ≠ text "quit" ∧ PUT ≠ text "quit" ∧ PUT ≠ TEST ∧ GET ≠ text "quit" ∧ GET ≠ TEST ∧ GET ≠ PUT ∧
    DEL ≠ text "quit" ∧ DEL ≠ TEST ∧ DEL ≠ PUT ∧ DEL ≠ GET := by decide

/-- The words of a command are taken from the front of a layout. -/
theorem readCommand_layout (hc : c.Worded) (h : Layout isSpace (c.words ++ ws) cin) :
    ∃ rest, readCommand cin = (c, rest) ∧ Layout isSpace ws rest ∧ rest.length < cin.length := by
  cases c with
  | quit =>
      obtain ⟨rest, hread, h, hlen⟩ := h.readWord
      exact ⟨rest, by simp [readCommand_eq, hread], h, hlen⟩
  | test _ | get _ | del _ =>
      obtain ⟨rest, hread, h, hlen⟩ := h.readWord
      obtain ⟨rest₁, hread₁, h₁, hlen₁⟩ := h.readWord
      exact ⟨rest₁, by simp [readCommand_eq, hread, hread₁, known_ne], h₁, hlen₁.trans hlen⟩
  | put key value =>
      obtain ⟨rest, hread, h, hlen⟩ := h.readWord
      obtain ⟨rest₁, hread₁, h₁, hlen₁⟩ := h.readWord
      obtain ⟨rest₂, hread₂, h₂, hlen₂⟩ := h₁.readWord
      exact ⟨rest₂, by simp [readCommand_eq, hread, hread₁, hread₂, known_ne], h₂, hlen₂.trans (hlen₁.trans hlen)⟩
  | other w =>
      obtain ⟨rest, hread, h, hlen⟩ := h.readWord
      have hnew : w ∉ [text "quit", TEST, PUT, GET, DEL] := hc.2
      simp only [List.mem_cons, List.not_mem_nil, or_false, not_or] at hnew
      exact ⟨rest, by simp [readCommand_eq, hread, hnew], h, hlen⟩

/-- A command that was read stands at the front of the text. -/
theorem layout_readCommand (hc : (readCommand cin).1.Worded) (h : Layout isSpace ws (readCommand cin).2) :
    Layout isSpace ((readCommand cin).1.words ++ ws) cin := by
  rw [readCommand_eq] at hc h ⊢
  split_ifs at hc h ⊢ with hquit htest hput hget hdel
  · have hword := Layout.of_readWord (hquit ▸ by decide) h
    rwa [hquit] at hword
  · have hword := Layout.of_readWord (htest ▸ by decide) (.of_readWord (hc.1 _ (by simp [Command.words])).1 h)
    rwa [htest] at hword
  · have hword := Layout.of_readWord (hput ▸ by decide)
      (.of_readWord (hc.1 _ (by simp [Command.words])).1 (.of_readWord (hc.1 _ (by simp [Command.words])).1 h))
    rwa [hput] at hword
  · have hword := Layout.of_readWord (hget ▸ by decide) (.of_readWord (hc.1 _ (by simp [Command.words])).1 h)
    rwa [hget] at hword
  · have hword := Layout.of_readWord (hdel ▸ by decide) (.of_readWord (hc.1 _ (by simp [Command.words])).1 h)
    rwa [hdel] at hword
  · exact .of_readWord (hc.1 _ (by simp [Command.words])).1 h

/-! ## A text -/

theorem Command.words_ne_nil (c : Command) : ∃ w ws, c.words = w :: ws := by
  cases c <;> exact ⟨_, _, rfl⟩

theorem length_readCommand (cin : Bytes) : (readCommand cin).2.length ≤ (readWord isSpace cin).2.length := by
  have hword : ∀ cin : Bytes, (readWord isSpace cin).2.length ≤ cin.length := fun cin =>
    (Nat.le_add_left _ _).trans (length_readWord cin)
  rw [readCommand_eq]
  split_ifs
  · exact le_rfl
  · exact hword _
  · exact (hword _).trans (hword _)
  · exact hword _
  · exact hword _
  · exact le_rfl

theorem readRounds_layout {fuel : ℕ} (hfuel : cin.length < fuel) (hcs : ∀ c ∈ cs, c.Worded) (hquit : .quit ∉ cs.dropLast)
    (hws : ws ≠ [] → .quit ∈ cs) (h : Layout isSpace (cs.flatMap Command.words ++ ws) cin) : readRounds fuel cin = cs := by
  induction fuel generalizing cin cs with
  | zero => exact absurd hfuel (Nat.not_lt_zero _)
  | succ fuel ih =>
      cases cs with
      | nil =>
          obtain rfl : ws = [] := by_contra fun hne => List.not_mem_nil (hws hne)
          rw [readRounds, if_pos h.dropWhile_eq_nil]
      | cons c cs =>
          rw [List.flatMap_cons, List.append_assoc] at h
          obtain ⟨w, ws', hws'⟩ := c.words_ne_nil
          have hne : cin.dropWhile isSpace ≠ [] := by
            rw [hws'] at h
            exact h.dropWhile_ne_nil
          obtain ⟨rest, hread, h, hlen⟩ := readCommand_layout (hcs c List.mem_cons_self) h
          rw [readRounds, if_neg hne, hread]
          simp only
          by_cases hc : c = .quit
          · -- a `quit` is the last command
            subst hc
            obtain rfl : cs = [] := by
              by_contra hcs'
              rw [List.dropLast_cons_of_ne_nil hcs'] at hquit
              exact hquit List.mem_cons_self
            rfl
          · have hquit' : .quit ∉ cs.dropLast := by
              cases cs with
              | nil => exact List.not_mem_nil
              | cons c' cs => exact fun hmem => hquit (List.mem_cons_of_mem _ hmem)
            have hws'' : ws ≠ [] → .quit ∈ cs := fun hne => (List.mem_cons.mp (hws hne)).resolve_left (Ne.symm hc)
            rw [if_neg hc, ih (by omega) (fun c hc => hcs c (List.mem_cons_of_mem _ hc)) hquit' hws'' h]

theorem layout_readRounds {fuel : ℕ} (hcs : ∀ c ∈ readRounds fuel cin, c.Worded) (hfuel : cin.length < fuel) :
    .quit ∉ (readRounds fuel cin).dropLast ∧
      ∃ ws, Layout isSpace ((readRounds fuel cin).flatMap Command.words ++ ws) cin ∧
        (ws ≠ [] → .quit ∈ readRounds fuel cin) := by
  induction fuel generalizing cin with
  | zero => exact absurd hfuel (Nat.not_lt_zero _)
  | succ fuel ih =>
      rw [readRounds] at hcs ⊢
      by_cases hend : cin.dropWhile isSpace = []
      · rw [if_pos hend]
        exact ⟨List.not_mem_nil, [], .of_dropWhile_eq_nil hend, fun h => absurd rfl h⟩
      rw [if_neg hend] at hcs ⊢
      simp only at hcs ⊢
      by_cases hquit : (readCommand cin).1 = .quit
      · rw [if_pos hquit] at hcs ⊢
        obtain ⟨ws, hws⟩ := @Layout.exists_layout _ isSpace (readCommand cin).2
        refine ⟨List.not_mem_nil, ws, ?_, fun _ => List.mem_singleton.mpr hquit.symm⟩
        rw [List.flatMap_singleton]
        exact layout_readCommand (hcs _ List.mem_cons_self) hws
      · rw [if_neg hquit] at hcs ⊢
        have hword := List.length_pos_iff.mpr (readWord_ne_nil hend)
        have hlen := @length_readWord _ isSpace cin
        have hrest := length_readCommand cin
        have hlt : (readCommand cin).2.length < fuel := by omega
        obtain ⟨hlast, ws, hws, hmem⟩ := ih (fun c hc => hcs c (List.mem_cons_of_mem _ hc)) hlt
        refine ⟨fun hq => ?_, ws, ?_, fun hne => List.mem_cons_of_mem _ (hmem hne)⟩
        · generalize readRounds fuel (readCommand cin).2 = cs at hlast hq
          cases cs with
          | nil => exact List.not_mem_nil hq
          | cons c cs => exact (List.mem_cons.mp hq).elim (fun h => hquit h.symm) hlast
        · rw [List.flatMap_cons, List.append_assoc]
          exact layout_readCommand (hcs _ List.mem_cons_self) hws

/-- The text of commands, of which a `quit` is the last, is read as these commands, whatever blanks stand between its words
and whatever words stand behind the `quit`; and no other text is. -/
theorem readCommands_iff (hcs : ∀ c ∈ cs, c.Worded) :
    readCommands cin = cs ↔
      .quit ∉ cs.dropLast ∧ ∃ ws, Layout isSpace (cs.flatMap Command.words ++ ws) cin ∧ (ws ≠ [] → .quit ∈ cs) := by
  constructor
  · rintro rfl
    exact layout_readRounds hcs (Nat.lt_succ_self _)
  · rintro ⟨hquit, ws, h, hws⟩
    exact readRounds_layout (Nat.lt_succ_self _) hcs hquit hws h

theorem readCommands_sample :
    readCommands (text " put a x\n\n quit get\ta") = [.put (text "a") (text "x"), .quit] ↔
      .quit ∉ [Command.put (text "a") (text "x"), .quit].dropLast ∧
        ∃ ws, Layout isSpace ([Command.put (text "a") (text "x"), .quit].flatMap Command.words ++ ws)
            (text " put a x\n\n quit get\ta") ∧
          (ws ≠ [] → .quit ∈ [Command.put (text "a") (text "x"), .quit]) :=
  readCommands_iff (by decide)

/-- Nothing is read behind a `quit`. -/
example : readCommands (text "put a x quit get a") = [.put (text "a") (text "x"), .quit] := by decide

end DistRocks
