import SecureIvshmem.Impl.IvshmemClient

/-!
# Lines of commands

What `ivshmem_client_cmdline_help` documents (`CommandText`), with any blanks,
is read as documented, on lines and between semicolons, as far as one `read`
goes. `int <peer> all` is more than that: any word that is not a number stands
for `all`. A text is defined just if its numbers are `int`s
(`parseCommands_isSome_iff`).
-/

namespace Ivshmem

open SharedMem

/-- A number as `%d` reads it: a sign or none, and digits. -/
structure Numeral (cs : List Char) (x : Int32) : Prop where
  text : ∃ sign ds, sign ∈ [[], ['+'], ['-']] ∧ ds ≠ [] ∧ (∀ c ∈ ds, c.isDigit = true) ∧ cs = sign ++ ds ∧
    x.toInt = if sign = ['-'] then -(Nat.ofDigitChars 10 ds 0 : Int) else Nat.ofDigitChars 10 ds 0

/-- The shortest of its texts. -/
def numeralText (x : Int32) : List Char :=
  (if x.toInt < 0 then ['-'] else []) ++ Nat.toDigits 10 x.toInt.natAbs

theorem numeral_numeralText (x : Int32) : Numeral (numeralText x) x := by
  refine ⟨_, _, ?_, Nat.toDigits_ne_nil,
    fun c => Nat.isDigit_of_mem_toDigits (by decide) (Nat.le_refl _), rfl, ?_⟩
  · split <;> simp
  · rw [Nat.ofDigitChars_ten_toDigits]
    by_cases hneg : x.toInt < 0
    · rw [if_pos hneg, if_pos rfl]
      omega
    · rw [if_neg hneg, if_neg (List.cons_ne_nil _ _).symm]
      omega

/-- Blanks, on a line. -/
def Blanks (cs : List Char) : Prop := ∀ c ∈ cs, isSpace c = true ∧ isSeparator c = false

/-- What `%d` cannot read. -/
def NoNumber (cs : List Char) : Prop :=
  ∀ c, (cs.dropWhile isSpace).head? = some c → c.isDigit = false ∧ c ≠ '+' ∧ c ≠ '-'

/-- The texts of a command. -/
inductive CommandText : List Char → ClientCommand → Prop
  | question : CommandText ['?'] .help
  | help : CommandText ['h', 'e', 'l', 'p'] .help
  | dump : CommandText ['d', 'u', 'm', 'p'] .dump
  | intAll : CommandText ['i', 'n', 't', ' ', 'a', 'l', 'l'] .intAll
  | intVector {b p b' v : List Char} {peerId vector : Int32} (hb : Blanks b) (hp : Numeral p peerId)
      (hb' : Blanks b') (hne : b' ≠ []) (hv : Numeral v vector) :
      CommandText (['i', 'n', 't'] ++ b ++ p ++ b' ++ v) (.intVector peerId vector)
  | intPeer {b p rest : List Char} {peerId : Int32} (hb : Blanks b) (hp : Numeral p peerId)
    (hrest : NoNumber rest)
      (hline : ∀ c ∈ rest, isSeparator c = false ∧ c ≠ '\x00') :
      CommandText (['i', 'n', 't'] ++ b ++ p ++ rest) (.intPeer peerId)

/-! ## Words -/

/-- A word ends where its characters do. -/
theorem dropWhile_word {p : Char → Bool} {word rest : List Char} (hword : ∀ c ∈ word, p c = true)
    (hrest : ∀ c, rest.head? = some c → p c = false) : (word ++ rest).dropWhile p = rest := by
  rw [List.dropWhile_append_of_pos hword]
  cases rest with
  | nil => rfl
  | cons c rest => exact List.dropWhile_cons_of_neg (Bool.eq_false_iff.mp (hrest c rfl))

theorem takeWhile_word {p : Char → Bool} {word rest : List Char} (hword : ∀ c ∈ word, p c = true)
    (hrest : ∀ c, rest.head? = some c → p c = false) : (word ++ rest).takeWhile p = word := by
  rw [List.takeWhile_append_of_pos hword]
  cases rest with
  | nil => simp
  | cons c rest => rw [List.takeWhile_cons_of_neg (Bool.eq_false_iff.mp (hrest c rfl)), List.append_nil]

/-- The characters that the scanner tells apart are no digits. -/
theorem notDigit {c : Char} (h : c.isDigit = true) :
    isSpace c = false ∧ isSeparator c = false ∧ c ≠ '+' ∧ c ≠ '-' ∧ c ≠ '\x00' := by
  have apart : ∀ d : Char, d.isDigit = false → c ≠ d := fun d hd e => by
    rw [e, hd] at h
    exact absurd h Bool.false_ne_true
  refine ⟨?_, ?_, apart _ rfl, apart _ rfl, apart _ rfl⟩
  · simp only [isSpace, Bool.or_eq_false_iff, beq_eq_false_iff_ne]
    exact ⟨⟨⟨⟨⟨apart _ rfl, apart _ rfl⟩, apart _ rfl⟩, apart _ rfl⟩, apart _ rfl⟩, apart _ rfl⟩
  · simp only [isSeparator, Bool.or_eq_false_iff, beq_eq_false_iff_ne]
    exact ⟨⟨apart _ rfl, apart _ rfl⟩, apart _ rfl⟩

/-! ## Numbers -/

theorem digitsValue_eq (ds : List Char) : digitsValue ds = Nat.ofDigitChars 10 ds 0 := by
  rw [Nat.ofDigitChars_eq_foldl]
  rfl

theorem scanSign_of_ne {c : Char} {cs : List Char} (hplus : c ≠ '+') (hminus : c ≠ '-') :
    scanSign (c :: cs) = (false, c :: cs) := by
  unfold scanSign
  split
  next hs => exact absurd (List.cons.inj hs).1 hminus
  next hs => exact absurd (List.cons.inj hs).1 hplus
  next => rfl

/-- What `%d` makes of digits. -/
theorem scanInt_digits {b sign ds rest : List Char} (hb : ∀ c ∈ b, isSpace c = true)
    (hsign : sign ∈ [[], ['+'], ['-']]) (hne : ds ≠ []) (hds : ∀ c ∈ ds, c.isDigit = true)
    (hrest : ∀ c, rest.head? = some c → c.isDigit = false) :
    scanInt (b ++ (sign ++ (ds ++ rest))) =
      some (if sign = ['-'] then -(digitsValue ds : Int) else digitsValue ds, rest) := by
  obtain ⟨d, ds', rfl⟩ := List.exists_cons_of_ne_nil hne
  obtain ⟨hspace, -, hplus, hminus, -⟩ := notDigit (hds d List.mem_cons_self)
  have htake := takeWhile_word hds hrest
  have hdrop := dropWhile_word hds hrest
  have hblank : (b ++ (sign ++ (d :: ds' ++ rest))).dropWhile isSpace = sign ++ (d :: ds' ++ rest) := by
    refine dropWhile_word hb fun c hc => ?_
    simp only [List.mem_cons, List.not_mem_nil, or_false] at hsign
    obtain rfl | rfl | rfl := hsign <;> cases hc
    exacts [hspace, rfl, rfl]
  rw [scanInt, hblank]
  simp only [List.mem_cons, List.not_mem_nil, or_false] at hsign
  obtain rfl | rfl | rfl := hsign
  · rw [List.nil_append, List.cons_append, scanSign_of_ne hplus hminus, ← List.cons_append]
    dsimp only
    rw [htake, hdrop]
    rfl
  · simp only [List.singleton_append, scanSign, htake, hdrop]
    rfl
  · simp only [List.singleton_append, scanSign, htake, hdrop, ↓reduceIte]

/-- A number that no digit follows. -/
theorem scanInt_numeral {b p rest : List Char} {x : Int32} (hb : ∀ c ∈ b, isSpace c = true)
    (hp : Numeral p x) (hrest : ∀ c, rest.head? = some c → c.isDigit = false) :
    scanInt (b ++ (p ++ rest)) = some (x.toInt, rest) := by
  obtain ⟨sign, ds, hsign, hne, hds, rfl, hx⟩ := hp.text
  rw [List.append_assoc, scanInt_digits hb hsign hne hds hrest, hx, digitsValue_eq]

theorem scanInt_noNumber {rest : List Char} (h : NoNumber rest) : scanInt rest = none := by
  unfold scanInt
  match hdrop : rest.dropWhile isSpace with
  | [] => rfl
  | c :: cs =>
    obtain ⟨hdigit, hplus, hminus⟩ := h c (by rw [hdrop]; rfl)
    rw [scanSign_of_ne hplus hminus]
    dsimp only
    rw [List.takeWhile_cons_of_neg (Bool.eq_false_iff.mp hdigit)]

theorem NoNumber.head {rest : List Char} (h : NoNumber rest) {c : Char} (hc : rest.head? = some c) :
    c.isDigit = false := by
  cases rest with
  | nil => cases hc
  | cons d rest =>
    cases hc
    refine Bool.eq_false_iff.mpr fun hdigit => ?_
    have hspace := (notDigit hdigit).1
    have := (h c (by rw [List.dropWhile_cons_of_neg (Bool.eq_false_iff.mp hspace)]; rfl)).1
    exact absurd hdigit (Bool.eq_false_iff.mp this)

theorem toInt32?_toInt (x : Int32) : toInt32? x.toInt = some x := by
  rw [toInt32?, if_pos ⟨x.minValue_le_toInt, x.toInt_le⟩, Int32.ofInt_toInt]

/-! ## Commands -/

theorem scanNumbers_numeral {b p rest : List Char} {x : Int32} (hb : Blanks b) (hp : Numeral p x)
    (hrest : ∀ c, rest.head? = some c → c.isDigit = false) :
    scanNumbers (['i', 'n', 't'] ++ b ++ p ++ rest) =
      match scanInt rest with
      | none => [x.toInt]
      | some (vector, _) => [x.toInt, vector] := by
  have hint : scanInt (b ++ (p ++ rest)) = some (x.toInt, rest) :=
    scanInt_numeral (fun c hc => (hb c hc).1) hp hrest
  rw [List.append_assoc, List.append_assoc]
  cases h : scanInt rest <;>
    simp only [scanNumbers, List.cons_append, List.nil_append, scanLiteral, ↓reduceIte, hint, h]

/-- The text of a number is not that of another command. -/
theorem parseToken_of_scan {token : List Char} (h : scanNumbers token ≠ []) :
    parseToken token =
      match scanNumbers token with
      | [] => some .invalid
      | [peerId] => (toInt32? peerId).map .intPeer
      | peerId :: vector :: _ => do return .intVector (← toInt32? peerId) (← toInt32? vector) := by
  have apart : ∀ other, scanNumbers other = [] → token ≠ other := fun other hother e => h (e ▸ hother)
  rw [parseToken, if_neg fun hor => hor.elim (apart _ rfl) (apart _ rfl), if_neg (apart _ rfl)]
  exact if_neg (apart _ rfl)

/-- A number fits an `int`. -/
def IsInt (x : Int) : Prop := -2 ^ 31 ≤ x ∧ x < 2 ^ 31

instance (x : Int) : Decidable (IsInt x) := inferInstanceAs (Decidable (_ ∧ _))

theorem toInt32?_isSome_iff (x : Int) : (toInt32? x).isSome ↔ IsInt x := by
  have hmin : Int32.minValue.toInt = -2 ^ 31 := by decide
  have hmax : Int32.maxValue.toInt = 2 ^ 31 - 1 := by decide
  rw [toInt32?, Option.isSome_ite, IsInt, hmin, hmax]
  omega

/-- A token is defined just if the numbers in it are `int`s. -/
theorem parseToken_isSome_iff (token : List Char) :
    (parseToken token).isSome ↔ ∀ x ∈ scanNumbers token, IsInt x := by
  by_cases hscan : scanNumbers token = []
  · refine iff_of_true ?_ (by simp [hscan])
    simp only [parseToken, hscan]
    split_ifs <;> rfl
  · have htwo : (scanNumbers token).length ≤ 2 := by
      unfold scanNumbers
      repeat' split
      all_goals simp
    rw [parseToken_of_scan hscan]
    match hnumbers : scanNumbers token with
    | [] => exact absurd hnumbers hscan
    | [peerId] => simp only [Option.isSome_map, toInt32?_isSome_iff, List.forall_mem_singleton]
    | [peerId, vector] =>
      simp only [List.forall_mem_cons, ← toInt32?_isSome_iff]
      cases toInt32? peerId <;> cases toInt32? vector <;> simp
    | _ :: _ :: _ :: _ =>
      rw [hnumbers] at htwo
      exact absurd htwo (by simp)

theorem mapM_isSome_iff {α β : Type} (f : α → Option β) : ∀ xs :
    List α, (xs.mapM f).isSome ↔ ∀ x ∈ xs, (f x).isSome
  | [] => iff_of_true rfl (by simp)
  | x :: xs => by
    rw [List.mapM_cons, List.forall_mem_cons, ← mapM_isSome_iff f xs]
    cases f x <;> cases xs.mapM f <;> simp

/-- The tokens of a text that are not empty. -/
def commandTokens (input : List Char) : List (List Char) :=
  ((input.takeWhile (· ≠ '\x00')).splitOnP isSeparator).filter (· ≠ [])

/-- A text is defined just if the numbers in its tokens are `int`s. -/
theorem parseCommands_isSome_iff (input : List Char) :
    (parseCommands input).isSome ↔ ∀ token ∈ commandTokens input, ∀ x ∈ scanNumbers token, IsInt x := by
  simp only [← parseToken_isSome_iff]
  exact mapM_isSome_iff parseToken (commandTokens input)

theorem CommandText.parse {token : List Char} {command : ClientCommand} (h : CommandText token command) :
    parseToken token = some command := by
  cases h with
  | question | help | dump | intAll => rfl
  | @intVector b p b' v peerId vector hb hp hb' hne hv =>
    have hscan : scanNumbers (['i', 'n', 't'] ++ b ++ p ++ b' ++ v) = [peerId.toInt, vector.toInt] := by
      have hvector : scanInt (b' ++ v) = some (vector.toInt, []) := by
        simpa using @scanInt_numeral b' v [] vector (fun c hc => (hb' c hc).1) hv (by simp)
      rw [List.append_assoc _ b' v, scanNumbers_numeral hb hp fun c hc => ?_, hvector]
      obtain ⟨d, b', rfl⟩ := List.exists_cons_of_ne_nil hne
      cases hc
      refine Bool.eq_false_iff.mpr fun hdigit => ?_
      have := (hb' c List.mem_cons_self).1
      rw [(notDigit hdigit).1] at this
      exact Bool.false_ne_true this
    rw [parseToken_of_scan (by rw [hscan]; exact List.cons_ne_nil _ _), hscan]
    dsimp only
    rw [toInt32?_toInt, toInt32?_toInt]
    rfl
  | @intPeer b p rest peerId hb hp hrest hline =>
    have hscan : scanNumbers (['i', 'n', 't'] ++ b ++ p ++ rest) = [peerId.toInt] := by
      rw [scanNumbers_numeral hb hp fun c hc => hrest.head hc, scanInt_noNumber hrest]
    rw [parseToken_of_scan (by rw [hscan]; exact List.cons_ne_nil _ _), hscan]
    dsimp only
    rw [toInt32?_toInt]
    rfl

/-- What stands on a line, before the first zero. -/
def OnLine (cs : List Char) : Prop := ∀ c ∈ cs, isSeparator c = false ∧ c ≠ '\x00'

theorem OnLine.of_all {cs : List Char}
    (h : cs.all (fun c => !isSeparator c && c != '\x00') = true) : OnLine cs := by
  intro c hc
  simpa using List.all_eq_true.mp h c hc

theorem OnLine.append {cs ds : List Char} (h : OnLine cs)
    (h' : OnLine ds) : OnLine (cs ++ ds) := fun c hc =>
  (List.mem_append.mp hc).elim (h c) (h' c)

theorem Blanks.onLine {cs : List Char} (h : Blanks cs) : OnLine cs := fun c hc => by
  refine ⟨(h c hc).2, ?_⟩
  rintro rfl
  exact Bool.false_ne_true (h _ hc).1

theorem Numeral.onLine {cs : List Char} {x : Int32} (h : Numeral cs x) : OnLine cs := by
  obtain ⟨sign, ds, hsign, -, hds, rfl, -⟩ := h.text
  refine OnLine.append ?_ fun c hc => ⟨(notDigit (hds c hc)).2.1, (notDigit (hds c hc)).2.2.2.2⟩
  simp only [List.mem_cons, List.not_mem_nil, or_false] at hsign
  obtain rfl | rfl | rfl := hsign <;> exact .of_all rfl

theorem CommandText.onLine {token : List Char} {command : ClientCommand} (h : CommandText token command) :
    OnLine token := by
  have hint : OnLine ['i', 'n', 't'] := .of_all rfl
  cases h with
  | question | help | dump | intAll => exact .of_all rfl
  | intVector hb hp hb' _ hv =>
    exact (((hint.append hb.onLine).append hp.onLine).append hb'.onLine).append hv.onLine
  | intPeer hb hp _ hline => exact ((hint.append hb.onLine).append hp.onLine).append hline

theorem CommandText.ne_nil {token : List Char} {command : ClientCommand} (h : CommandText token command) :
    token ≠ [] := by
  cases h <;> exact List.cons_ne_nil _ _

/-- A command, and what separates it from the next one. -/
structure CommandLine where
  token : List Char
  command : ClientCommand
  seps : List Char
  text : CommandText token command
  seps_ne : seps ≠ []
  separates : ∀ c ∈ seps, isSeparator c = true

/-- The characters of some lines. -/
def linesText (lines : List CommandLine) : List Char := lines.flatMap fun line => line.token ++ line.seps

/-- The tokens of some lines, without the empty ones. -/
theorem splitOnP_seps : ∀ (seps rest : List Char), (∀ c ∈ seps, isSeparator c = true) →
    ((seps ++ rest).splitOnP isSeparator).filter (· ≠ []) = (rest.splitOnP isSeparator).filter (· ≠ [])
  | [], _, _ => rfl
  | c :: seps, rest, h => by
    obtain ⟨hc, h⟩ := List.forall_mem_cons.mp h
    have hnil : ∀ c ∈ ([] : List Char), isSeparator c = false := by simp
    have := List.splitOnP_append_cons_of_forall_mem hnil c hc (seps ++ rest)
    rw [List.cons_append, ← List.nil_append (c :: (seps ++ rest)), this,
      List.filter_cons_of_neg (by simp), splitOnP_seps seps rest h]

theorem splitOnP_lines : ∀ lines : List CommandLine,
    ((linesText lines).splitOnP isSeparator).filter (· ≠ []) = lines.map CommandLine.token
  | [] => rfl
  | line :: lines => by
    obtain ⟨c, seps, hseps⟩ := List.exists_cons_of_ne_nil line.seps_ne
    obtain ⟨hc, hall⟩ := List.forall_mem_cons.mp (hseps ▸ line.separates)
    have hsplit := List.splitOnP_append_cons_of_forall_mem (fun c hc => (line.text.onLine c hc).1) c hc
      (seps ++ linesText lines)
    have htext : linesText (line :: lines) = line.token ++ c :: (seps ++ linesText lines) := by
      rw [linesText, List.flatMap_cons, hseps, List.append_assoc]
      rfl
    rw [htext, hsplit, List.filter_cons_of_pos (by simpa using line.text.ne_nil),
      splitOnP_seps seps _ hall, splitOnP_lines lines, List.map_cons]

theorem linesText_ne_zero (lines : List CommandLine) : ∀ c ∈ linesText lines, c ≠ '\x00' := by
  intro c hc
  obtain ⟨line, -, hc⟩ := List.mem_flatMap.mp hc
  obtain hc | hc := List.mem_append.mp hc
  · exact (line.text.onLine c hc).2
  · rintro rfl
    exact Bool.false_ne_true (line.separates _ hc)

theorem mapM_parseToken : ∀ lines : List CommandLine,
    (lines.map CommandLine.token).mapM parseToken = some (lines.map CommandLine.command)
  | [] => rfl
  | line :: lines => by
    rw [List.map_cons, List.mapM_cons, line.text.parse, mapM_parseToken lines]
    rfl

/-- Commands that are separated are read one by one. -/
theorem parseCommands_linesText (lines : List CommandLine) :
    parseCommands (linesText lines) = some (lines.map CommandLine.command) := by
  have hzero : (linesText lines).takeWhile (· ≠ '\x00') = linesText lines := by
    have := @takeWhile_word (· ≠ '\x00') (linesText lines) []
      (fun c hc => decide_eq_true (linesText_ne_zero lines c hc)) (by simp)
    rwa [List.append_nil] at this
  rw [parseCommands, hzero, splitOnP_lines, mapM_parseToken]

/-- One `read` runs the commands of lines that it holds. -/
theorem handleStdinCommand_linesText (write : Int → Bool) (c : IvshmemClient) {lines : List CommandLine}
    (h : (linesText lines).length ≤ commandMax) :
    c.handleStdinCommand write (some (linesText lines)) =
      some (0, (lines.map CommandLine.command).flatMap (c.runCommand write)) := by
  rw [IvshmemClient.handleStdinCommand, List.take_of_length_le h, parseCommands_linesText,
    Option.map_some]

theorem length_numeralText_le (x : Int32) : (numeralText x).length ≤ 11 := by
  have hlow := x.le_toInt
  have hhigh := x.toInt_lt
  have hdigits := Nat.toDigits_length 10 x.toInt.natAbs 10 (by decide) (by omega)
  rw [numeralText, List.length_append]
  split <;> simp <;> omega

/-- Every command but an invalid one has a text, of 27 characters at most. -/
theorem CommandText.exists {command : ClientCommand} (h : command ≠ .invalid) :
    ∃ token, CommandText token command ∧ token.length ≤ 27 := by
  have hblanks : Blanks [' '] := List.forall_mem_singleton.mpr ⟨rfl, rfl⟩
  cases command with
  | help => exact ⟨_, .help, by decide⟩
  | dump => exact ⟨_, .dump, by decide⟩
  | intAll => exact ⟨_, .intAll, by decide⟩
  | intVector peerId vector =>
    refine ⟨_, .intVector hblanks (numeral_numeralText peerId) hblanks (List.cons_ne_nil _ _)
      (numeral_numeralText vector), ?_⟩
    have := length_numeralText_le peerId
    have := length_numeralText_le vector
    simp only [List.length_append, List.length_cons, List.length_nil]
    omega
  | intPeer peerId =>
    refine ⟨['i', 'n', 't'] ++ [' '] ++ numeralText peerId ++ [' ', 'a', 'l', 'l'],
      .intPeer hblanks (numeral_numeralText peerId) ?_ (OnLine.of_all rfl), ?_⟩
    · rintro c hc
      cases hc
      decide
    · have := length_numeralText_le peerId
      simp only [List.length_append, List.length_cons, List.length_nil]
      omega
  | invalid => exact absurd rfl h

/-- And so has a line of its own. -/
theorem CommandLine.exists {command : ClientCommand} (h : command ≠ .invalid) :
    ∃ line : CommandLine, line.command = command ∧ (linesText [line]).length ≤ commandMax := by
  obtain ⟨token, htext, hlen⟩ := CommandText.exists h
  refine ⟨⟨token, command, ['\n'], htext, List.cons_ne_nil _ _, List.forall_mem_singleton.mpr rfl⟩,
    rfl, ?_⟩
  simp only [linesText, List.flatMap_cons, List.flatMap_nil, List.length_append, List.length_cons,
    List.length_nil]
  exact Nat.le_trans (Nat.add_le_add_right hlen 1) (by decide)

/-- Lines of commands that one `read` holds are run as their texts say, and
every list of commands but invalid ones can be said, a line for each `read`. -/
theorem commands_read_back (write : Int → Bool) (c : IvshmemClient) :
    (∀ lines : List CommandLine, (linesText lines).length ≤ commandMax →
      c.handleStdinCommand write (some (linesText lines)) =
        some (0, (lines.map CommandLine.command).flatMap (c.runCommand write))) ∧
      ∀ commands : List ClientCommand, (∀ command ∈ commands, command ≠ .invalid) →
        ∃ lines : List CommandLine, lines.map CommandLine.command = commands ∧
          ∀ line ∈ lines, c.handleStdinCommand write (some (linesText [line])) =
            some (0, c.runCommand write line.command) := by
  refine ⟨fun lines => handleStdinCommand_linesText write c, fun commands h => ?_⟩
  induction commands with
  | nil => exact ⟨[], rfl, by simp⟩
  | cons command commands ih =>
    obtain ⟨hcommand, hcommands⟩ := List.forall_mem_cons.mp h
    obtain ⟨line, hline, hlen⟩ := CommandLine.exists hcommand
    obtain ⟨lines, hlines, hreads⟩ := ih hcommands
    refine ⟨line :: lines, by rw [List.map_cons, hline, hlines], List.forall_mem_cons.mpr ⟨?_, hreads⟩⟩
    rw [handleStdinCommand_linesText write c hlen, List.map_singleton, List.flatMap_singleton]

/-- Of thirteen lines one `read` runs twelve, and half of the last one. -/
example :
    let lines := List.replicate 13 ['i', 'n', 't', ' ', '1', '0', ' ', '2', '0', '\n']
    parseCommands (lines.flatten.take commandMax) =
      some (List.replicate 12 (.intVector 10 20) ++ [.intPeer 10]) := by
  decide +kernel

end Ivshmem
