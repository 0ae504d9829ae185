import Xv6MallocLab.ShellGrammar

/-!
# Command lines in memory

The scanner reads the tokens of the line one after the other, so that the parser does on
the line what it does on the list of tokens; the NULs that `nulterminate` stores are in
no word.
-/

namespace Xv6MallocLab.Shell

open ByteMemory Function List

section Simulation

variable {σ σ' ω ω' : Type}

inductive Cmd.Rel (W : ω → ω' → Prop) : Cmd ω → Cmd ω' → Prop
  | exec {argv : List ω} {argv' : List ω'} (h : List.Forall₂ W argv argv') :
      Rel W (.exec argv) (.exec argv')
  | redir {c : Cmd ω} {c' : Cmd ω'} {file : ω} {file' : ω'} (hc : Rel W c c') (hfile : W file file')
      (mode fd : ℕ) : Rel W (.redir c file mode fd) (.redir c' file' mode fd)
  | pipe {l r : Cmd ω} {l' r' : Cmd ω'} (hl : Rel W l l') (hr : Rel W r r') :
      Rel W (.pipe l r) (.pipe l' r')
  | list {l r : Cmd ω} {l' r' : Cmd ω'} (hl : Rel W l l') (hr : Rel W r r') :
      Rel W (.list l r) (.list l' r')
  | back {c : Cmd ω} {c' : Cmd ω'} (hc : Rel W c c') : Rel W (.back c) (.back c')

/-- The inputs agree on what the parser asks for. -/
structure Simulates (inp : Input σ ω) (inp' : Input σ' ω') (R : σ → σ' → Prop) (W : ω → ω' → Prop) :
    Prop where
  peek : ∀ {ps ps'} (toks : List UInt8), toks ⊆ symbols → R ps ps' →
    (inp.peek toks ps).1 = (inp'.peek toks ps').1 ∧ R (inp.peek toks ps).2 (inp'.peek toks ps').2
  gettoken : ∀ {ps ps'}, R ps ps' → (inp.gettoken ps).1 = (inp'.gettoken ps').1 ∧
    ((inp.gettoken ps).1 = letterA → W (inp.gettoken ps).2.1 (inp'.gettoken ps').2.1) ∧
    R (inp.gettoken ps).2.2 (inp'.gettoken ps').2.2

/-- Both stop in the same way, or return related results. -/
inductive Agrees (R : σ → σ' → Prop) (W : ω → ω' → Prop) :
    Except Stop (Cmd ω × σ) → Except Stop (Cmd ω' × σ') → Prop
  | ok {c : Cmd ω} {c' : Cmd ω'} {ps : σ} {ps' : σ'} (hc : Cmd.Rel W c c') (hps : R ps ps') :
      Agrees R W (.ok (c, ps)) (.ok (c', ps'))
  | error (e : Stop) : Agrees R W (.error e) (.error e)

variable {inp : Input σ ω} {inp' : Input σ' ω'} {R : σ → σ' → Prop} {W : ω → ω' → Prop}

theorem Agrees.bind {x : Except Stop (Cmd ω × σ)} {x' : Except Stop (Cmd ω' × σ')}
    {f : Cmd ω × σ → Except Stop (Cmd ω × σ)} {f' : Cmd ω' × σ' → Except Stop (Cmd ω' × σ')}
    (hx : Agrees R W x x')
    (hf : ∀ c c' ps ps', Cmd.Rel W c c' → R ps ps' → Agrees R W (f (c, ps)) (f' (c', ps'))) :
    Agrees R W (x >>= f) (x' >>= f') := by
  cases hx with
  | ok hc hps => exact hf _ _ _ _ hc hps
  | error e => exact .error e

variable {c : Cmd ω} {c' : Cmd ω'} {ps : σ} {ps' : σ'}

variable {q : ω} {q' : ω'}

theorem Cmd.Rel.addArg (h : Cmd.Rel W c c') (hq : W q q') :
    Cmd.Rel W (c.addArg q) (c'.addArg q') := by
  induction h with
  | exec h => exact .exec (rel_append h (.cons hq .nil))
  | redir _ hfile mode fd ih => exact .redir ih hfile mode fd
  | pipe hl hr _ _ => exact .pipe hl hr
  | list hl hr _ _ => exact .list hl hr
  | back hc _ => exact .back hc

theorem Cmd.Rel.redirect (h : Cmd.Rel W c c') (hq : W q q') (tok : UInt8) :
    Cmd.Rel W (Shell.redirect tok c q) (Shell.redirect tok c' q') := by
  rw [Shell.redirect, Shell.redirect]
  split_ifs
  · exact .redir h hq _ _
  · exact .redir h hq _ _
  · exact .redir h hq _ _
  · exact h

variable (hsim : Simulates inp inp' R W)

include hsim

theorem parseredirs_agrees (fuel : ℕ) (hc : Cmd.Rel W c c') (hps : R ps ps') :
    Agrees R W (parseredirs inp fuel c ps) (parseredirs inp' fuel c' ps') := by
  induction fuel generalizing c c' ps ps' with
  | zero => exact .error .fuel
  | succ fuel ih =>
    obtain ⟨hmore, hps1⟩ := hsim.peek [less, greater] (by decide) hps
    obtain ⟨htok, -, hps2⟩ := hsim.gettoken hps1
    obtain ⟨hfile, hword, hps3⟩ := hsim.gettoken hps2
    rw [parseredirs, parseredirs]
    dsimp only
    rw [← hmore, ← htok, ← hfile]
    split_ifs with h1 h2
    · exact .error _
    · exact ih (hc.redirect (hword (not_not.mp h2)) _) hps3
    · exact .ok hc hps1

theorem argLoop_agrees (fuel argc : ℕ) (hc : Cmd.Rel W c c') (hps : R ps ps') :
    Agrees R W (argLoop inp fuel argc c ps) (argLoop inp' fuel argc c' ps') := by
  induction fuel generalizing argc c c' ps ps' with
  | zero => exact .error .fuel
  | succ fuel ih =>
    obtain ⟨hstop, hps1⟩ := hsim.peek [bar, rparen, ampersand, semicolon] (by decide) hps
    obtain ⟨htok, hword, hps2⟩ := hsim.gettoken hps1
    rw [argLoop, argLoop]
    dsimp only
    rw [← hstop, ← htok]
    split_ifs with h1 h2 h3 h4
    · exact .ok hc hps1
    · exact .ok hc hps2
    · exact .error _
    · exact .error _
    · apply Agrees.bind
      · exact parseredirs_agrees hsim fuel (hc.addArg (hword (not_not.mp h3))) hps2
      · intro c1 c1' ps1 ps1' hc1 hps1
        exact ih (argc + 1) hc1 hps1

theorem backLoop_agrees (fuel : ℕ) (hc : Cmd.Rel W c c') (hps : R ps ps') :
    Agrees R W (backLoop inp fuel c ps) (backLoop inp' fuel c' ps') := by
  induction fuel generalizing c c' ps ps' with
  | zero => exact .error .fuel
  | succ fuel ih =>
    obtain ⟨hmore, hps1⟩ := hsim.peek [ampersand] (by decide) hps
    obtain ⟨-, -, hps2⟩ := hsim.gettoken hps1
    rw [backLoop, backLoop]
    dsimp only
    rw [← hmore]
    split_ifs
    · exact ih (.back hc) hps2
    · exact .ok hc hps1

theorem parser_agrees (fuel : ℕ) (hps : R ps ps') :
    Agrees R W (parseline inp fuel ps) (parseline inp' fuel ps') ∧
    Agrees R W (parsepipe inp fuel ps) (parsepipe inp' fuel ps') ∧
    Agrees R W (parseexec inp fuel ps) (parseexec inp' fuel ps') ∧
    Agrees R W (parseblock inp fuel ps) (parseblock inp' fuel ps') := by
  induction fuel generalizing ps ps' with
  | zero => exact ⟨.error .fuel, .error .fuel, .error .fuel, .error .fuel⟩
  | succ fuel ih =>
    refine ⟨?_, ?_, ?_, ?_⟩
    · rw [parseline, parseline]
      refine (ih hps).2.1.bind fun c c' ps1 ps1' hc hps1 => ?_
      refine (backLoop_agrees hsim fuel hc hps1).bind fun c c' ps2 ps2' hc hps2 => ?_
      obtain ⟨hmore, hps3⟩ := hsim.peek [semicolon] (by decide) hps2
      obtain ⟨-, -, hps4⟩ := hsim.gettoken hps3
      dsimp only
      rw [← hmore]
      split_ifs
      · exact (ih hps4).1.bind fun d d' ps5 ps5' hd hps5 => .ok (.list hc hd) hps5
      · exact .ok hc hps3
    · rw [parsepipe, parsepipe]
      refine (ih hps).2.2.1.bind fun c c' ps1 ps1' hc hps1 => ?_
      obtain ⟨hmore, hps2⟩ := hsim.peek [bar] (by decide) hps1
      obtain ⟨-, -, hps3⟩ := hsim.gettoken hps2
      dsimp only
      rw [← hmore]
      split_ifs
      · exact (ih hps3).2.1.bind fun d d' ps4 ps4' hd hps4 => .ok (.pipe hc hd) hps4
      · exact .ok hc hps2
    · obtain ⟨hblock, hps1⟩ := hsim.peek [lparen] (by decide) hps
      rw [parseexec, parseexec]
      dsimp only
      rw [← hblock]
      split_ifs
      · exact (ih hps1).2.2.2
      · refine (parseredirs_agrees hsim fuel (.exec .nil) hps1).bind fun c c' ps2 ps2' hc hps2 => ?_
        exact argLoop_agrees hsim fuel 0 hc hps2
    · obtain ⟨hopened, hps1⟩ := hsim.peek [lparen] (by decide) hps
      obtain ⟨-, -, hps2⟩ := hsim.gettoken hps1
      rw [parseblock, parseblock]
      dsimp only
      rw [← hopened]
      split_ifs
      · exact .error _
      · refine (ih hps2).1.bind fun c c' ps3 ps3' hc hps3 => ?_
        obtain ⟨hclosed, hps4⟩ := hsim.peek [rparen] (by decide) hps3
        obtain ⟨-, -, hps5⟩ := hsim.gettoken hps4
        dsimp only
        rw [← hclosed]
        split_ifs
        · exact .error _
        · exact parseredirs_agrees hsim fuel hc hps5

end Simulation

def symbolToken (c : UInt8) : Option Token :=
  if c = bar then some .bar
  else if c = lparen then some .lparen
  else if c = rparen then some .rparen
  else if c = semicolon then some .semicolon
  else if c = ampersand then some .ampersand
  else if c = less then some .less
  else none

/-- The tokens of a line: between whitespace, `>>` before `>`, the other symbols, and
words that go on as long as they can. -/
def lex : List UInt8 → List Token
  | [] => []
  | c :: l =>
    if strchr whitespace c then lex l
    else
      match symbolToken c with
      | some t => t :: lex l
      | none =>
        if c = greater then
          if l.head? = some greater then .append :: lex l.tail else .greater :: lex l
        else .word (c :: l.takeWhile wordChar) :: lex (l.dropWhile wordChar)
termination_by l => l.length
decreasing_by
  all_goals simp only [length_cons, length_tail]
  all_goals try omega
  exact Nat.lt_succ_of_le (length_dropWhile_le _ _)

variable {c : UInt8}

theorem lex_space (h : strchr whitespace c = true) (l : List UInt8) : lex (c :: l) = lex l := by
  rw [lex, if_pos h]

theorem lex_dropWhile (l : List UInt8) : lex (l.dropWhile (strchr whitespace)) = lex l := by
  induction l with
  | nil => rfl
  | cons c l ih =>
    cases hc : strchr whitespace c with
    | true => rw [dropWhile_cons_of_pos hc, ih, lex_space hc]
    | false => rw [dropWhile_cons_of_neg (by simp [hc])]

theorem symbolToken_some {t : Token} (h : symbolToken c = some t) :
    (c = bar ∨ c = lparen ∨ c = rparen ∨ c = semicolon ∨ c = ampersand ∨ c = less) ∧
      t.code = c ∧ t.lead = c ∧ t.code ≠ letterA := by
  rw [symbolToken] at h
  split_ifs at h with h1 h2 h3 h4 h5 h6
  all_goals cases h
  · exact ⟨Or.inl h1, h1.symm, h1.symm, by decide⟩
  · exact ⟨by tauto, h2.symm, h2.symm, by decide⟩
  · exact ⟨by tauto, h3.symm, h3.symm, by decide⟩
  · exact ⟨by tauto, h4.symm, h4.symm, by decide⟩
  · exact ⟨by tauto, h5.symm, h5.symm, by decide⟩
  · exact ⟨by tauto, h6.symm, h6.symm, by decide⟩

theorem symbolToken_none (h : symbolToken c = none) :
    ¬ (c = bar ∨ c = lparen ∨ c = rparen ∨ c = semicolon ∨ c = ampersand ∨ c = less) := by
  rw [symbolToken] at h
  split_ifs at h with h1 h2 h3 h4 h5 h6
  tauto

theorem mem_symbols : strchr symbols c = true ↔
    (c = bar ∨ c = lparen ∨ c = rparen ∨ c = semicolon ∨ c = ampersand ∨ c = less) ∨ c = greater := by
  simp only [strchr, symbols, contains_eq_mem, mem_cons, not_mem_nil, or_false, decide_eq_true_eq]
  tauto

variable {m : Memory} {es s : ℕ} {l : List UInt8}

theorem skip_eq (cond : UInt8 → Bool) (h : CString m s l) :
    skip m cond l.length s = s + (l.takeWhile cond).length := by
  induction h with
  | nil => rfl
  | @cons s c l hc _ _ ih =>
    rw [length_cons, skip, hc]
    cases hcond : cond c with
    | true =>
      rw [if_pos rfl, ih, takeWhile_cons_of_pos hcond, length_cons, Nat.add_assoc, Nat.add_comm 1]
    | false =>
      rw [if_neg Bool.false_ne_true, takeWhile_cons_of_neg (by simp [hcond])]
      rfl

structure At (m : Memory) (es s : ℕ) (l : List UInt8) : Prop where
  string : CString m s l
  stop : s + l.length = es
  pos : 0 < s

theorem At.skip (h : At m es s l) (cond : UInt8 → Bool) :
    At m es (skip m cond (es - s) s) (l.dropWhile cond) := by
  have hlen : es - s = l.length := by
    have := h.stop
    omega
  have hsplit := congrArg List.length (takeWhile_append_dropWhile (p := cond) (l := l))
  rw [length_append] at hsplit
  have hstop := h.stop
  rw [hlen, skip_eq cond h.string]
  exact ⟨h.string.drop cond, by omega, Nat.add_pos_left h.pos _⟩

/-- The word `w` between two pointers: it goes no further, and no NUL and no character
that ends words is in it. -/
structure Word (m : Memory) (q : ℕ × ℕ) (w : List UInt8) : Prop where
  pos : 0 < q.1
  stop : q.2 = q.1 + w.length
  bytes : ∀ i (hi : i < w.length), m (q.1 + i) = w[i]
  chars : ∀ c ∈ w, wordChar c = true ∧ c ≠ 0
  ends : m q.2 = 0 ∨ wordChar (m q.2) = false

theorem At.word (h : At m es s (c :: l)) (hc : wordChar c = true) :
    Word m (s, Shell.skip m wordChar (es - s) s) (c :: l.takeWhile wordChar) := by
  have hlen : es - s = (c :: l).length := by
    have := h.stop
    omega
  have htake : (c :: l).takeWhile wordChar = c :: l.takeWhile wordChar := takeWhile_cons_of_pos hc
  have hskip := skip_eq wordChar h.string
  have hpre : (c :: l.takeWhile wordChar) <+: c :: l := by
    rw [← htake]
    exact takeWhile_prefix _
  rw [htake] at hskip
  rw [hlen, hskip]
  refine ⟨h.pos, rfl, ?_, ?_, ?_⟩
  · intro i hi
    rw [h.string.getElem (lt_of_lt_of_le hi hpre.length_le), hpre.getElem hi]
  · intro d hd
    rw [← htake] at hd
    exact ⟨mem_takeWhile_imp hd, h.string.ne_zero d (takeWhile_subset _ hd)⟩
  · have hrest := h.string.drop wordChar
    rw [htake] at hrest
    dsimp only
    cases hdrop : (c :: l).dropWhile wordChar with
    | nil =>
      rw [hdrop] at hrest
      exact Or.inl hrest.nul
    | cons d t =>
      rw [hdrop] at hrest
      have hd := head?_dropWhile_not wordChar (c :: l)
      rw [hdrop] at hd
      right
      cases hrest with
      | cons hbyte _ _ =>
        rw [hbyte]
        simpa using hd

structure Finds (m : Memory) (es s : ℕ) (c : UInt8) (l : List UInt8) (tok : Token) (rest : List UInt8) :
    Prop where
  tokens : lex (c :: l) = tok :: lex rest
  code : (token m es s).1 = tok.code
  lead : ∀ toks ⊆ symbols, strchr toks c = strchr toks tok.lead
  rest : At m es (token m es s).2 rest
  word : tok.code = letterA → Word m (s, (token m es s).2) tok.text

theorem At.finds (h : At m es s (c :: l)) (hspace : strchr whitespace c = false) :
    ∃ tok rest, Finds m es s c l tok rest := by
  have hpos := h.pos
  have hstop := h.stop
  rw [length_cons] at hstop
  have hbyte : m s = c := h.string.getElem (Nat.zero_lt_succ _)
  have hne : c ≠ 0 := h.string.ne_zero c mem_cons_self
  have hl : CString m (s + 1) l := CString.append_right (w := [c]) h.string
  cases hsym : symbolToken c with
  | some t =>
    obtain ⟨hone, hcode, hlead, hnot⟩ := symbolToken_some hsym
    have htoken : token m es s = (c, s + 1) := by rw [token, hbyte, if_neg hne, if_pos hone]
    refine ⟨t, l, ?_, ?_, ?_, ?_, fun hletter => absurd hletter hnot⟩
    · rw [lex, hspace, hsym]
      rfl
    · rw [htoken, hcode]
    · intro toks _
      rw [hlead]
    · rw [htoken]
      exact ⟨hl, by dsimp only; omega, by dsimp only; omega⟩
  | none =>
    have hmany := symbolToken_none hsym
    have hlex : lex (c :: l) = if c = greater then
          if l.head? = some greater then .append :: lex l.tail else .greater :: lex l
        else .word (c :: l.takeWhile wordChar) :: lex (l.dropWhile wordChar) := by
      rw [lex, hspace, hsym]
      rfl
    by_cases hgreater : c = greater
    · rw [if_pos hgreater] at hlex
      by_cases htwo : l.head? = some greater
      · obtain ⟨t, rfl⟩ := head?_eq_some_iff.mp htwo
        have hnext : m (s + 1) = greater := hl.getElem (Nat.zero_lt_succ _)
        have htoken : token m es s = (plus, s + 2) := by
          rw [token, hbyte, if_neg hne, if_neg hmany, if_pos hgreater, if_pos hnext]
        rw [if_pos htwo] at hlex
        refine ⟨.append, t, hlex, by rw [htoken]; rfl, fun toks _ => by rw [hgreater]; rfl, ?_, nofun⟩
        rw [htoken]
        rw [length_cons] at hstop
        exact ⟨CString.append_right (w := [greater]) hl, by dsimp only; omega, by dsimp only; omega⟩
      · have hnext : m (s + 1) ≠ greater := by
          intro heq
          cases hl with
          | nil hnul =>
            rw [hnul] at heq
            cases heq
          | cons hd _ _ =>
            apply htwo
            rw [← heq, hd]
            rfl
        have htoken : token m es s = (c, s + 1) := by
          rw [token, hbyte, if_neg hne, if_neg hmany, if_pos hgreater, if_neg hnext]
        rw [if_neg htwo] at hlex
        refine ⟨.greater, l, hlex, by rw [htoken, hgreater]; rfl,
          fun toks _ => by rw [hgreater]; rfl, ?_,
          nofun⟩
        rw [htoken]
        exact ⟨hl, by dsimp only; omega, by dsimp only; omega⟩
    · have hnosym : strchr symbols c = false := by
        rw [Bool.eq_false_iff, ne_eq, mem_symbols]
        tauto
      have hchar : wordChar c = true := by rw [wordChar, hspace, hnosym]; rfl
      have htoken : token m es s = (letterA, Shell.skip m wordChar (es - s) s) := by
        rw [token, hbyte, if_neg hne, if_neg hmany, if_neg hgreater]
      rw [if_neg hgreater] at hlex
      have hrest := h.skip wordChar
      rw [dropWhile_cons_of_pos hchar] at hrest
      refine ⟨.word (c :: l.takeWhile wordChar), l.dropWhile wordChar, hlex, ?_, ?_, ?_, ?_⟩
      · rw [htoken]
        rfl
      · intro toks hsub
        have hout : ∀ d, strchr symbols d = false → strchr toks d = false := by
          intro d hd
          simp only [strchr, contains_eq_mem, decide_eq_false_iff_not] at hd ⊢
          exact fun hmem => hd (hsub hmem)
        rw [hout c hnosym]
        exact (hout letterA (by decide)).symm
      · rw [htoken]
        exact hrest
      · intro _
        rw [htoken]
        exact h.word hchar

def Reads (m : Memory) (es ps : ℕ) (ts : List Token) : Prop := ∃ l, At m es ps l ∧ lex l = ts

variable {ts : List Token} {t : Tree}

theorem Reads.next (h : Reads m es s ts) :
    (ts = [] ∧ skip m (strchr whitespace) (es - s) s = es ∧ At m es es []) ∨
      ∃ c l tok rest, ts = tok :: lex rest ∧
        At m es (skip m (strchr whitespace) (es - s) s) (c :: l) ∧ c ≠ 0 ∧
        Finds m es (skip m (strchr whitespace) (es - s) s) c l tok rest := by
  obtain ⟨l, hat, rfl⟩ := h
  have hskip := hat.skip (strchr whitespace)
  rw [← lex_dropWhile]
  cases hdrop : l.dropWhile (strchr whitespace) with
  | nil =>
    rw [hdrop] at hskip
    have hstop : skip m (strchr whitespace) (es - s) s = es := hskip.stop
    rw [hstop] at hskip
    exact Or.inl ⟨by rw [lex], hstop, hskip⟩
  | cons c t =>
    rw [hdrop] at hskip
    have hspace : strchr whitespace c = false := by
      have hhead := head?_dropWhile_not (strchr whitespace) l
      rw [hdrop] at hhead
      simpa using hhead
    obtain ⟨tok, rest, hfinds⟩ := hskip.finds hspace
    exact Or.inr ⟨c, t, tok, rest, hfinds.tokens, hskip, hskip.string.ne_zero c mem_cons_self, hfinds⟩

theorem At.reads_skip (h : At m es s l) :
    Reads m es (Shell.skip m (strchr whitespace) (es - s) s) (lex l) :=
  ⟨_, h.skip _, lex_dropWhile l⟩

theorem lineInput_simulates (m : Memory) (es : ℕ) :
    Simulates (lineInput m es) tokenInput (Reads m es) (Word m) where
  peek {ps ts} toks hsub h := by
    have hps : Reads m es (skip m (strchr whitespace) (es - ps) ps) ts := by
      obtain ⟨l, hat, rfl⟩ := h
      exact hat.reads_skip
    refine ⟨?_, hps⟩
    change (m (skip m (strchr whitespace) (es - ps) ps) ≠ 0 &&
      strchr toks (m (skip m (strchr whitespace) (es - ps) ps))) = ts.head?.any _
    rcases h.next with ⟨rfl, hstop, hend⟩ | ⟨c, l, tok, rest, rfl, hat, hne, hfinds⟩
    · have hnul : m es = 0 := hend.string.nul
      rw [hstop, hnul]
      rfl
    · have hbyte : m (skip m (strchr whitespace) (es - ps) ps) = c :=
        hat.string.getElem (Nat.zero_lt_succ _)
      rw [hbyte, hfinds.lead toks hsub]
      simp [hne]
  gettoken {ps ts} h := by
    rcases h.next with ⟨rfl, hstop, hend⟩ | ⟨c, l, tok, rest, rfl, hat, hne, hfinds⟩
    · have hnul : m es = 0 := hend.string.nul
      have htoken : gettoken m es ps = (0, (es, es), es) := by
        simp only [gettoken, hstop, token, hnul, if_true, Nat.sub_self]
        rfl
      change (gettoken m es ps).1 = 0 ∧ ((gettoken m es ps).1 = letterA → _) ∧
        Reads m es (gettoken m es ps).2.2 []
      rw [htoken]
      exact ⟨rfl, fun hletter => (by cases hletter), [], hend, by rw [lex]⟩
    · refine ⟨hfinds.code, fun hletter => hfinds.word (hfinds.code.symm.trans hletter), ?_⟩
      exact hfinds.rest.reads_skip

def Cmd.words {ω : Type} : Cmd ω → List ω
  | .exec argv => argv
  | .redir c file _ _ => file :: c.words
  | .pipe l r => l.words ++ r.words
  | .list l r => l.words ++ r.words
  | .back c => c.words

theorem foldl_update_apply (argv : List (ℕ × ℕ)) (m : Memory) (x : ℕ) :
    argv.foldl (fun m q => update m q.2 0) m x = if x ∈ argv.map Prod.snd then 0 else m x := by
  induction argv generalizing m with
  | nil => rfl
  | cons q argv ih =>
    rw [foldl_cons, ih, map_cons]
    simp only [mem_cons, update_apply]
    split_ifs <;> tauto

theorem nulterminate_apply (c : Cmd (ℕ × ℕ)) (m : Memory) (x : ℕ) (hpos : ∀ q ∈ c.words, 0 < q.1) :
    nulterminate c m x = if x ∈ c.words.map Prod.snd then 0 else m x := by
  induction c generalizing m with
  | exec argv =>
    have hall : argv.takeWhile (·.1 ≠ 0) = argv :=
      takeWhile_eq_self_iff.mpr fun q hq => decide_eq_true (hpos q hq).ne'
    rw [nulterminate, hall]
    exact foldl_update_apply argv m x
  | redir c file mode fd ih =>
    rw [nulterminate, Cmd.words, map_cons]
    simp only [update_apply, ih m fun q hq => hpos q (mem_cons_of_mem _ hq), mem_cons]
    split_ifs <;> tauto
  | pipe l r ihl ihr | list l r ihl ihr =>
    rw [nulterminate, ihr _ fun q hq => hpos q (mem_append_right _ hq),
      ihl _ fun q hq => hpos q (mem_append_left _ hq), Cmd.words, map_append]
    simp only [mem_append]
    split_ifs <;> tauto
  | back c ih => exact ih m hpos

section Rel

variable {ω ω' : Type} {W W' : ω → ω' → Prop}

variable {c' : Cmd ω'}

theorem Cmd.Rel.exists_word {c : Cmd ω} (h : Cmd.Rel W c c') {q : ω} (hq : q ∈ c.words) :
    ∃ w, W q w := by
  induction h with
  | exec h =>
    rw [Cmd.words] at hq
    induction h with
    | nil => exact absurd hq not_mem_nil
    | cons hw _ ih =>
      rcases mem_cons.mp hq with rfl | hq
      · exact ⟨_, hw⟩
      · exact ih hq
  | redir _ hfile _ _ ih =>
    rcases mem_cons.mp hq with rfl | hq
    · exact ⟨_, hfile⟩
    · exact ih hq
  | pipe _ _ ihl ihr =>
    rcases mem_append.mp hq with hq | hq
    · exact ihl hq
    · exact ihr hq
  | list _ _ ihl ihr =>
    rcases mem_append.mp hq with hq | hq
    · exact ihl hq
    · exact ihr hq
  | back _ ih => exact ih hq

theorem Cmd.Rel.mono {c : Cmd ω} (h : Cmd.Rel W c c') (hW : ∀ q ∈ c.words, ∀ w, W q w → W' q w) :
    Cmd.Rel W' c c' := by
  induction h with
  | exec h =>
    rw [Cmd.words] at hW
    apply Cmd.Rel.exec
    induction h with
    | nil => exact .nil
    | cons hw _ ih =>
      exact .cons (hW _ mem_cons_self _ hw) (ih fun q hq => hW q (mem_cons_of_mem _ hq))
  | redir _ hfile mode fd ih =>
    refine .redir (ih fun q hq => hW q (mem_cons_of_mem _ hq)) ?_ mode fd
    exact hW _ mem_cons_self _ hfile
  | pipe _ _ ihl ihr =>
    exact .pipe (ihl fun q hq => hW q (mem_append_left _ hq))
      (ihr fun q hq => hW q (mem_append_right _ hq))
  | list _ _ ihl ihr =>
    exact .list (ihl fun q hq => hW q (mem_append_left _ hq))
      (ihr fun q hq => hW q (mem_append_right _ hq))
  | back _ ih => exact .back (ih hW)

end Rel

theorem nulterminate_strings {c : Cmd (ℕ × ℕ)} (h : Cmd.Rel (Word m) c t) :
    Cmd.Rel (fun q w => CString (nulterminate c m) q.1 w) c t := by
  have hpos : ∀ q ∈ c.words, 0 < q.1 := by
    intro q hq
    obtain ⟨w, hw⟩ := h.exists_word hq
    exact hw.pos
  refine h.mono fun q hq w hw => ?_
  have hkeep : ∀ i, i < w.length → nulterminate c m (q.1 + i) = m (q.1 + i) := by
    intro i hi
    rw [nulterminate_apply c m _ hpos, if_neg]
    intro hmem
    obtain ⟨q', hq', heq⟩ := mem_map.mp hmem
    obtain ⟨w', hw'⟩ := h.exists_word hq'
    have hchar := hw.chars _ (getElem_mem hi)
    rw [← hw.bytes i hi, ← heq] at hchar
    rcases hw'.ends with hnul | hstop
    · exact hchar.2 hnul
    · rw [hstop] at hchar
      exact Bool.false_ne_true hchar.1
  apply CString.of_bytes
  · intro i hi
    rw [hkeep i hi, hw.bytes i hi]
  · exact fun d hd => (hw.chars d hd).2
  · rw [← hw.stop, nulterminate_apply c m _ hpos, if_pos (mem_map_of_mem hq)]

theorem Derives.unique {u : Tree} (ht : Derives .line ts t) (hu : Derives .line ts u) : t = u := by
  obtain ⟨N, hN⟩ := ht.complete
  obtain ⟨M, hM⟩ := hu.complete
  have hend : Follow .line [] := nofun
  have h1 := hN (N + M) (by omega) [] hend
  have h2 := hM (N + M) (by omega) [] hend
  rw [h1] at h2
  cases h2
  rfl

theorem strlen_eq (h : CString m s l) {fuel : ℕ} (hfuel : l.length < fuel) :
    scanBytes (· != 0) m fuel s = some (s + l.length) := by
  have hall : l.takeWhile (· != 0) = l := by
    rw [takeWhile_eq_self_iff]
    intro c hc
    simpa using h.ne_zero c hc
  rw [h.scanBytes_eq (· != 0) rfl fuel hfuel, hall]

/-- `parsecmd` returns the tree of the line, with its words as strings, or the line has
no derivation and it panics. -/
theorem parsecmd_accepts_grammar (h : CString m s l) (hs : 0 < s) :
    ∃ N, ∀ fuel ≥ N,
      (∃ t, (∀ u, Derives .line (lex l) u ↔ u = t) ∧
        ∃ cmd m', parsecmd fuel m s = .ok (cmd, m') ∧ Cmd.Rel (fun q w => CString m' q.1 w) cmd t) ∨
      ((∀ u, ¬ Derives .line (lex l) u) ∧ ∃ msg, parsecmd fuel m s = .error (.panic msg)) := by
  have hreads : Reads m (s + l.length) s (lex l) := ⟨l, ⟨h, rfl, hs⟩, rfl⟩
  have hagrees := fun fuel => (parser_agrees (lineInput_simulates m (s + l.length)) fuel hreads).1
  by_cases hderives : ∃ t, Derives .line (lex l) t
  · obtain ⟨t, ht⟩ := hderives
    obtain ⟨N, hN⟩ := ht.complete
    refine ⟨N + l.length + 1, fun fuel hfuel =>
      Or.inl ⟨t, fun u => ⟨fun hu => hu.unique ht, fun hu => hu ▸ ht⟩, ?_⟩⟩
    have htokens : parseline tokenInput fuel (lex l) = .ok (t, []) := by
      have hrun := hN fuel (by omega) [] nofun
      rw [append_nil] at hrun
      exact hrun
    have hline := hagrees fuel
    rw [htokens] at hline
    generalize hrun : parseline (lineInput m (s + l.length)) fuel s = x at hline
    cases hline with
    | @ok cmd _ ps _ hcmd hps =>
      refine ⟨cmd, nulterminate cmd m, ?_, nulterminate_strings hcmd⟩
      rw [parsecmd, strlen_eq h (by omega)]
      dsimp only
      rw [hrun]
      rcases hps.next with ⟨-, hstop, -⟩ | ⟨_, _, _, _, hcons, -⟩
      · change (if skip m (strchr whitespace) (s + l.length - ps) ps ≠ s + l.length then _ else _) = _
        rw [if_neg (not_not.mpr hstop)]
        rfl
      · cases hcons
  · refine ⟨4 * (lex l).length + 4 + l.length + 1, fun fuel hfuel =>
      Or.inr ⟨fun u hu => hderives ⟨u, hu⟩, ?_⟩⟩
    have hline := hagrees fuel
    rw [parsecmd, strlen_eq h (by omega)]
    dsimp only
    rcases (outcome fuel).1 (lex l) (by omega) with ⟨msg, hpanic⟩ | ⟨c, t, r, hsplit, ht, hok⟩
    · rw [show parseline tokenInput fuel (lex l) = _ from hpanic] at hline
      generalize hrun : parseline (lineInput m (s + l.length)) fuel s = x at hline
      cases hline
      exact ⟨msg, rfl⟩
    · rw [show parseline tokenInput fuel (lex l) = _ from hok] at hline
      generalize hrun : parseline (lineInput m (s + l.length)) fuel s = x at hline
      cases hline with
      | @ok cmd _ ps _ hcmd hps =>
        refine ⟨"syntax", ?_⟩
        have hleft : skip m (strchr whitespace) (s + l.length - ps) ps ≠ s + l.length := by
          rcases hps.next with ⟨rfl, -, -⟩ | ⟨d, l', _, _, -, hat, -⟩
          · rw [append_nil] at hsplit
            rw [hsplit] at hderives
            exact absurd ⟨t, ht⟩ hderives
          · have hstop := hat.stop
            rw [length_cons] at hstop
            omega
        change (if skip m (strchr whitespace) (s + l.length - ps) ps ≠ s + l.length then _ else _) = _
        rw [if_pos hleft]

def sampleLine : List UInt8 := [97, 62, 98]

def sampleMemory : Memory := fun a => sampleLine.getD (a - 64) 0

theorem sampleLine_string : CString sampleMemory 64 sampleLine :=
  .cons rfl (by decide) (.cons rfl (by decide) (.cons rfl (by decide) (.nil rfl)))

theorem lex_sampleLine : lex sampleLine = [.word [97], .greater, .word [98]] := by
  simp [sampleLine, lex, symbolToken, strchr, whitespace, wordChar, symbols, bar, lparen, rparen,
    semicolon,
    ampersand, less, greater]

theorem sampleLine_derives : Derives .line (lex sampleLine)
    (.redir (.exec [[97]]) [98] (oWronly ||| oCreate ||| oTrunc) 1) := by
  rw [lex_sampleLine]
  exact .line (.one (.words .nil (.cons (.cons rfl .nil) .nil) (by decide))) 0

theorem parsecmd_accepts_grammar_sample :
    ∃ N, ∀ fuel ≥ N, ∃ cmd m', parsecmd fuel sampleMemory 64 = .ok (cmd, m') ∧
      Cmd.Rel (fun q w => CString m' q.1 w) cmd
        (.redir (.exec [[97]]) [98] (oWronly ||| oCreate ||| oTrunc) 1) := by
  obtain ⟨N, hN⟩ := parsecmd_accepts_grammar sampleLine_string (by decide)
  refine ⟨N, fun fuel hfuel => ?_⟩
  rcases hN fuel hfuel with ⟨t, ht, hparsed⟩ | ⟨hnone, -⟩
  · rw [(ht _).mp sampleLine_derives]
    exact hparsed
  · exact absurd sampleLine_derives (hnone _)

end Xv6MallocLab.Shell
