import Xv6MallocLab.ShellParser

/-!
# The grammar of the shell

The grammar over the tokens of a line, and the parser on a list of tokens: it returns a
tree with what it has not read if and only if a first part of the tokens derives that
tree and the rest cannot continue it.
-/

namespace Xv6MallocLab.Shell

open List

inductive Token
  | bar | lparen | rparen | semicolon | ampersand | less | greater | append
  | word (w : List UInt8)
  deriving DecidableEq, Repr

def Token.redirects : Token → Option (ℕ × ℕ)
  | .less => some (oRdonly, 0)
  | .greater => some (oWronly ||| oCreate ||| oTrunc, 1)
  | .append => some (oWronly ||| oCreate, 1)
  | _ => none

abbrev Tree := Cmd (List UInt8)

structure Redir where
  file : List UInt8
  mode : ℕ
  fd : ℕ

def wrap (t : Tree) (rs : List Redir) : Tree := rs.foldl (fun t r => .redir t r.file r.mode r.fd) t

inductive Redirs : List Token → List Redir → Prop
  | nil : Redirs [] []
  | cons {op : Token} {mode fd : ℕ} {w : List UInt8} {ts : List Token} {rs : List Redir}
      (hop : op.redirects = some (mode, fd)) (hrest : Redirs ts rs) :
      Redirs (op :: .word w :: ts) (⟨w, mode, fd⟩ :: rs)

inductive Words : List Token → List (List UInt8) → List Redir → Prop
  | nil : Words [] [] []
  | cons {w : List UInt8} {r a : List Token} {rs rs' : List Redir} {ws : List (List UInt8)}
      (hr : Redirs r rs) (ha : Words a ws rs') : Words (.word w :: (r ++ a)) (w :: ws) (rs ++ rs')

inductive Nonterminal
  | line | pipe | exec

/-- The derivations of the grammar, with their trees. -/
inductive Derives : Nonterminal → List Token → Tree → Prop
  | line {p : List Token} {t : Tree} (hp : Derives .pipe p t) (n : ℕ) :
      Derives .line (p ++ List.replicate n .ampersand) (Cmd.back^[n] t)
  | sequence {p l : List Token} {t u : Tree} (hp : Derives .pipe p t) (n : ℕ) (hl : Derives .line l u) :
      Derives .line (p ++ List.replicate n .ampersand ++ .semicolon :: l) (.list (Cmd.back^[n] t) u)
  | one {e : List Token} {t : Tree} (he : Derives .exec e t) : Derives .pipe e t
  | pipe {e p : List Token} {t u : Tree} (he : Derives .exec e t) (hp : Derives .pipe p u) :
      Derives .pipe (e ++ .bar :: p) (.pipe t u)
  | block {l r : List Token} {t : Tree} {rs : List Redir} (hl : Derives .line l t) (hr : Redirs r rs) :
      Derives .exec (.lparen :: (l ++ .rparen :: r)) (wrap t rs)
  | words {r a : List Token} {rs rs' : List Redir} {ws : List (List UInt8)} (hr : Redirs r rs)
      (ha : Words a ws rs') (hmax : ws.length ≤ maxargs - 1) :
      Derives .exec (r ++ a) (wrap (.exec ws) (rs ++ rs'))

def Token.code : Token → UInt8
  | .bar => Shell.bar
  | .lparen => Shell.lparen
  | .rparen => Shell.rparen
  | .semicolon => Shell.semicolon
  | .ampersand => Shell.ampersand
  | .less => Shell.less
  | .greater => Shell.greater
  | .append => plus
  | .word _ => letterA

/-- What `peek` sees: a word is seen as a letter. -/
def Token.lead : Token → UInt8
  | .append => Shell.greater
  | t => t.code

def Token.text : Token → List UInt8
  | .word w => w
  | _ => []

def tokenInput : Input (List Token) (List UInt8) where
  peek toks ts := (ts.head?.any fun t => strchr toks t.lead, ts)
  gettoken ts := ((ts.head?.map Token.code).getD 0, (ts.head?.map Token.text).getD [], ts.tail)

def NoRedir (ts : List Token) : Prop := ∀ t ∈ ts.head?, t.redirects = none

theorem peek_cons (toks : List UInt8) (t : Token) (ts : List Token) :
    tokenInput.peek toks (t :: ts) = (strchr toks t.lead, t :: ts) := rfl

theorem strchr_redirs (t : Token) : strchr [less, greater] t.lead = t.redirects.isSome := by
  cases t <;> rfl

variable {op : Token} {argc n : ℕ}

theorem parseredirs_cons {mode fd : ℕ} (hop : op.redirects = some (mode, fd)) (fuel : ℕ)
    (t : Tree) (w : List UInt8) (ts : List Token) :
    parseredirs tokenInput (fuel + 1) t (op :: .word w :: ts) =
      parseredirs tokenInput fuel (.redir t w mode fd) ts := by
  cases op <;> cases hop <;> rfl

variable {ts c r a : List Token} {rs : List Redir} {fuel : ℕ} {ws : List (List UInt8)} {t : Tree}

theorem parseredirs_stop (fuel : ℕ) (t : Tree) (h : NoRedir ts) :
    parseredirs tokenInput (fuel + 1) t ts = .ok (t, ts) := by
  cases ts with
  | nil => rfl
  | cons op ts =>
    have hno := h op rfl
    rw [parseredirs, peek_cons, strchr_redirs, hno]
    rfl

theorem parseredirs_missing (hop : op.redirects.isSome) (fuel : ℕ) (t : Tree)
    (h : ∀ w, ts.head? ≠ some (.word w)) :
    parseredirs tokenInput (fuel + 1) t (op :: ts) = .error (.panic "missing file for redirection") := by
  rw [parseredirs, peek_cons, strchr_redirs, hop]
  cases ts with
  | nil => rfl
  | cons file ts =>
    cases file with
    | word w => exact absurd rfl (h w)
    | _ => rfl

theorem redirs_complete (h : Redirs c rs) (hfuel : c.length < fuel) (t : Tree) (hr : NoRedir r) :
    parseredirs tokenInput fuel t (c ++ r) = .ok (wrap t rs, r) := by
  induction h generalizing fuel t with
  | nil =>
    obtain ⟨fuel, rfl⟩ : ∃ k, fuel = k + 1 := ⟨fuel - 1, by omega⟩
    exact parseredirs_stop fuel t hr
  | @cons op mode fd w ts rs hop hrest ih =>
    rw [length_cons, length_cons] at hfuel
    obtain ⟨fuel, rfl⟩ : ∃ k, fuel = k + 1 := ⟨fuel - 1, by omega⟩
    rw [cons_append, cons_append, parseredirs_cons hop]
    exact ih (by omega) _

theorem redirs_sound (t : Tree) (hfuel : ts.length < fuel) :
    (∃ msg, parseredirs tokenInput fuel t ts = .error (.panic msg)) ∨
      ∃ c rs r, ts = c ++ r ∧ Redirs c rs ∧ NoRedir r ∧
        parseredirs tokenInput fuel t ts = .ok (wrap t rs, r) := by
  induction fuel generalizing t ts with
  | zero => omega
  | succ fuel ih =>
    by_cases hno : NoRedir ts
    · exact .inr ⟨[], [], ts, rfl, .nil, hno, parseredirs_stop fuel t hno⟩
    · cases ts with
      | nil => exact absurd nofun hno
      | cons op ts =>
        have hop : op.redirects.isSome := by
          rw [Option.isSome_iff_ne_none]
          intro hnone
          apply hno
          rintro _ ⟨⟩
          exact hnone
        by_cases hword : ∃ w, ts.head? = some (.word w)
        · obtain ⟨w, hw⟩ := hword
          obtain ⟨ts, rfl⟩ := head?_eq_some_iff.mp hw
          obtain ⟨⟨mode, fd⟩, hop⟩ := Option.isSome_iff_exists.mp hop
          rw [parseredirs_cons hop]
          have hlen : ts.length < fuel := by
            simp only [length_cons] at hfuel
            omega
          rcases ih (.redir t w mode fd) hlen with hpanic | ⟨c, rs, r, rfl, hc, hr, hok⟩
          · exact .inl hpanic
          · exact .inr ⟨op :: .word w :: c, ⟨w, mode, fd⟩ :: rs, r, rfl, .cons hop hc, hr, hok⟩
        · exact .inl ⟨_, parseredirs_missing hop fuel t fun w hw => hword ⟨w, hw⟩⟩

theorem wrap_append (t : Tree) (rs rs' : List Redir) : wrap t (rs ++ rs') = wrap (wrap t rs) rs' :=
  foldl_append

theorem addArg_wrap (ws : List (List UInt8)) (rs : List Redir) (w : List UInt8) :
    (wrap (.exec ws) rs).addArg w = wrap (.exec (ws ++ [w])) rs := by
  induction rs using List.reverseRecOn with
  | nil => rfl
  | append_singleton rs r ih =>
    rw [wrap_append, wrap_append, ← ih]
    rfl

/-- The rest goes on with what ends the arguments of a command, or there is none. -/
def ExecFollow (ts : List Token) : Prop :=
  ∀ t ∈ ts.head?, t = .bar ∨ t = .rparen ∨ t = .ampersand ∨ t = .semicolon

theorem ExecFollow.noRedir (h : ExecFollow ts) : NoRedir ts := by
  intro t ht
  rcases h t ht with rfl | rfl | rfl | rfl <;> rfl

theorem argLoop_stop (fuel argc : ℕ) (t : Tree) (h : ExecFollow ts) :
    argLoop tokenInput (fuel + 1) argc t ts = .ok (t, ts) := by
  cases ts with
  | nil => rfl
  | cons tok ts =>
    rcases h tok rfl with rfl | rfl | rfl | rfl <;> rfl

theorem argLoop_word (hargc : argc + 1 < maxargs) (fuel : ℕ) (t : Tree) (w : List UInt8)
    (ts : List Token) :
    argLoop tokenInput (fuel + 1) argc t (.word w :: ts) =
      (do
        let (ret, ps) ← parseredirs tokenInput fuel (t.addArg w) ts
        argLoop tokenInput fuel (argc + 1) ret ps) := by
  have hno : ¬ maxargs ≤ argc + 1 := not_le.mpr hargc
  rw [argLoop, peek_cons]
  change (if maxargs ≤ argc + 1 then _ else _) = _
  rw [if_neg hno]
  rfl

theorem argLoop_too_many (hargc : maxargs ≤ argc + 1) (fuel : ℕ) (t : Tree) (w : List UInt8)
    (ts : List Token) :
    argLoop tokenInput (fuel + 1) argc t (.word w :: ts) = .error (.panic "too many args") := by
  rw [argLoop, peek_cons]
  change (if maxargs ≤ argc + 1 then _ else _) = _
  rw [if_pos hargc]

theorem argLoop_panic {tok : Token} (hfollow : ¬ ExecFollow (tok :: ts)) (hword : ∀ w, tok ≠ .word w)
    (fuel argc : ℕ) (t : Tree) :
    argLoop tokenInput (fuel + 1) argc t (tok :: ts) = .error (.panic "syntax") := by
  cases tok with
  | word w => exact absurd rfl (hword w)
  | lparen => rfl
  | less => rfl
  | greater => rfl
  | append => rfl
  | _ => exact absurd (fun _ ht => by cases ht; simp) hfollow

theorem Words.noRedir (h : Words a ws rs) (hr : ExecFollow r) : NoRedir (a ++ r) := by
  cases h with
  | nil => exact hr.noRedir
  | cons _ _ =>
    rintro _ ⟨⟩
    rfl

theorem words_complete (h : Words a ws rs) (hfuel : a.length < fuel) (vs : List (List UInt8))
    (qs : List Redir) (hmax : vs.length + ws.length < maxargs) (hr : ExecFollow r) :
    argLoop tokenInput fuel vs.length (wrap (.exec vs) qs) (a ++ r) =
      .ok (wrap (.exec (vs ++ ws)) (qs ++ rs), r) := by
  induction h generalizing fuel vs qs with
  | nil =>
    obtain ⟨fuel, rfl⟩ : ∃ k, fuel = k + 1 := ⟨fuel - 1, by omega⟩
    rw [append_nil, append_nil]
    exact argLoop_stop fuel _ _ hr
  | @cons w c a rs rs' ws hc ha ih =>
    rw [length_cons, length_append] at hfuel
    rw [length_cons] at hmax
    obtain ⟨fuel, rfl⟩ : ∃ k, fuel = k + 1 := ⟨fuel - 1, by omega⟩
    have hclen : c.length < fuel := by omega
    have halen : a.length < fuel := by omega
    have hredirs := redirs_complete hc hclen (wrap (.exec (vs ++ [w])) qs) (ha.noRedir hr)
    have hrest := ih halen (vs ++ [w]) (qs ++ rs) (by simp; omega)
    rw [length_append, length_singleton] at hrest
    rw [cons_append, append_assoc, argLoop_word (by omega), addArg_wrap, hredirs]
    change argLoop tokenInput fuel (vs.length + 1) _ _ = _
    rw [← wrap_append, hrest, append_assoc, append_assoc]
    rfl

theorem words_sound (hfuel : ts.length < fuel) (vs : List (List UInt8)) (qs : List Redir)
    (hno : NoRedir ts) (hmax : vs.length < maxargs) :
    (∃ msg, argLoop tokenInput fuel vs.length (wrap (.exec vs) qs) ts = .error (.panic msg)) ∨
      ∃ a ws rs r, ts = a ++ r ∧ Words a ws rs ∧ ExecFollow r ∧ vs.length + ws.length < maxargs ∧
        argLoop tokenInput fuel vs.length (wrap (.exec vs) qs) ts =
          .ok (wrap (.exec (vs ++ ws)) (qs ++ rs), r) := by
  induction fuel generalizing ts vs qs with
  | zero => omega
  | succ fuel ih =>
    by_cases hfollow : ExecFollow ts
    · refine .inr ⟨[], [], [], ts, rfl, .nil, hfollow, hmax, ?_⟩
      rw [append_nil, append_nil]
      exact argLoop_stop fuel _ _ hfollow
    · cases ts with
      | nil => exact absurd nofun hfollow
      | cons tok ts =>
        by_cases hword : ∃ w, tok = .word w
        · obtain ⟨w, rfl⟩ := hword
          by_cases hargc : vs.length + 1 < maxargs
          · rw [length_cons] at hfuel
            have hlen : ts.length < fuel := by omega
            rw [argLoop_word hargc, addArg_wrap]
            rcases redirs_sound (wrap (.exec (vs ++ [w])) qs) hlen with
              ⟨msg, hpanic⟩ | ⟨c, rs, r, rfl, hc, hr, hok⟩
            · left
              rw [hpanic]
              exact ⟨msg, rfl⟩
            · rw [hok]
              change (∃ msg, argLoop tokenInput fuel (vs.length + 1) (wrap _ rs) r = _) ∨
                ∃ a ws rs0 r0, _ ∧ _ ∧ _ ∧ _ ∧ argLoop tokenInput fuel (vs.length + 1) (wrap _ rs) r = _
              have hcount : vs.length + 1 = (vs ++ [w]).length := by simp
              rw [length_append] at hlen
              rw [← wrap_append, hcount]
              rcases ih (by omega) (vs ++ [w]) (qs ++ rs) hr (by omega) with
                hpanic | ⟨a, ws, rs', r', rfl, ha, hr', hlt, hdone⟩
              · exact .inl hpanic
              · refine .inr ⟨.word w :: (c ++ a), w :: ws, rs ++ rs', r', ?_, .cons hc ha, hr', ?_, ?_⟩
                · simp
                · rw [length_cons]
                  omega
                · rw [hdone, append_assoc, append_assoc]
                  rfl
          · exact .inl ⟨_, argLoop_too_many (not_lt.mp hargc) fuel _ w ts⟩
        · exact .inl ⟨_, argLoop_panic hfollow (fun w hw => hword ⟨w, hw⟩) fuel _ _⟩

def Follow : Nonterminal → List Token → Prop
  | .exec, ts => ExecFollow ts
  | .pipe, ts => ∀ t ∈ ts.head?, t = .rparen ∨ t = .ampersand ∨ t = .semicolon
  | .line, ts => ∀ t ∈ ts.head?, t = .rparen

def parse : Nonterminal → ℕ → List Token → Except Stop (Tree × List Token)
  | .line => parseline tokenInput
  | .pipe => parsepipe tokenInput
  | .exec => parseexec tokenInput

theorem follow_pipe_replicate (n : ℕ) (h : Follow .pipe r) :
    Follow .pipe (List.replicate n .ampersand ++ r) := by
  cases n with
  | zero => exact h
  | succ n =>
    rintro _ ⟨⟩
    simp

theorem backLoop_replicate (hfuel : n < fuel) (t : Tree) (hr : r.head? ≠ some .ampersand) :
    backLoop tokenInput fuel t (List.replicate n .ampersand ++ r) = .ok (Cmd.back^[n] t, r) := by
  induction n generalizing fuel t with
  | zero =>
    obtain ⟨fuel, rfl⟩ : ∃ k, fuel = k + 1 := ⟨fuel - 1, by omega⟩
    cases r with
    | nil => rfl
    | cons tok r =>
      cases tok with
      | ampersand => exact absurd rfl hr
      | _ => rfl
  | succ n ih =>
    obtain ⟨fuel, rfl⟩ : ∃ k, fuel = k + 1 := ⟨fuel - 1, by omega⟩
    have hrest := ih (Nat.lt_of_succ_lt_succ hfuel) (.back t)
    rw [Function.iterate_succ_apply, ← hrest]
    rfl

theorem exists_replicate (ts : List Token) :
    ∃ n r, ts = List.replicate n .ampersand ++ r ∧ r.head? ≠ some .ampersand := by
  induction ts with
  | nil => exact ⟨0, [], rfl, nofun⟩
  | cons t ts ih =>
    by_cases ht : t = .ampersand
    · obtain ⟨n, r, rfl, hr⟩ := ih
      exact ⟨n + 1, r, by rw [ht]; rfl, hr⟩
    · refine ⟨0, t :: ts, rfl, ?_⟩
      rintro ⟨⟩
      exact ht rfl

theorem parseline_of_pipe
    (hpipe : parsepipe tokenInput fuel ts = .ok (t, List.replicate n .ampersand ++ r))
    (hfuel : n < fuel) (hr : r.head? ≠ some .ampersand) :
    parseline tokenInput (fuel + 1) ts =
      if r.head? = some .semicolon then do
        let (u, ps) ← parseline tokenInput fuel r.tail
        return (.list (Cmd.back^[n] t) u, ps)
      else .ok (Cmd.back^[n] t, r) := by
  rw [parseline, hpipe]
  change (backLoop tokenInput fuel t (List.replicate n Token.ampersand ++ r) >>= _) = _
  rw [backLoop_replicate hfuel t hr]
  cases r with
  | nil => rfl
  | cons tok r => cases tok <;> rfl

theorem parsepipe_of_exec (hexec : parseexec tokenInput fuel ts = .ok (t, r)) :
    parsepipe tokenInput (fuel + 1) ts =
      if r.head? = some .bar then do
        let (u, ps) ← parsepipe tokenInput fuel r.tail
        return (.pipe t u, ps)
      else .ok (t, r) := by
  rw [parsepipe, hexec]
  cases r with
  | nil => rfl
  | cons tok r => cases tok <;> rfl

theorem parseexec_block (fuel : ℕ) (ts : List Token) :
    parseexec tokenInput (fuel + 2) (.lparen :: ts) =
      (do
        let (cmd, ps) ← parseline tokenInput fuel ts
        if ps.head? = some .rparen then parseredirs tokenInput fuel cmd ps.tail
        else .error (.panic "syntax - missing )")) := by
  rw [parseexec, peek_cons]
  change parseblock tokenInput (fuel + 1) (.lparen :: ts) = _
  rw [parseblock, peek_cons]
  change (parseline tokenInput fuel ts >>= _) = _
  congr 1
  funext x
  obtain ⟨cmd, ps⟩ := x
  cases ps with
  | nil => rfl
  | cons tok ps => cases tok <;> rfl

theorem parseexec_words (fuel : ℕ) (h : ts.head? ≠ some .lparen) :
    parseexec tokenInput (fuel + 1) ts =
      (do
        let (ret, ps) ← parseredirs tokenInput fuel (.exec []) ts
        argLoop tokenInput fuel 0 ret ps) := by
  rw [parseexec]
  cases ts with
  | nil => rfl
  | cons tok ts =>
    cases tok with
    | lparen => exact absurd rfl h
    | _ => rfl

theorem head_ne_lparen {rs' : List Redir} (hc : Redirs c rs) (ha : Words a ws rs')
    (hr : ExecFollow r) : (c ++ (a ++ r)).head? ≠ some .lparen := by
  cases hc with
  | cons hop _ =>
    rintro ⟨⟩
    cases hop
  | nil =>
    cases ha with
    | cons _ _ => exact nofun
    | nil =>
      intro hhead
      rcases hr _ hhead with h | h | h | h <;> cases h

theorem Derives.complete {X : Nonterminal} (h : Derives X c t) :
    ∃ N, ∀ fuel ≥ N, ∀ r, Follow X r → parse X fuel (c ++ r) = .ok (t, r) := by
  induction h with
  | @line p t hp n ih =>
    obtain ⟨N, hN⟩ := ih
    refine ⟨N + n + 2, fun fuel hfuel r hr => ?_⟩
    obtain ⟨fuel, rfl⟩ : ∃ k, fuel = k + 1 := ⟨fuel - 1, by omega⟩
    have hfollow : Follow .pipe r := fun tok htok => .inl (hr tok htok)
    have hpipe := hN fuel (by omega) _ (follow_pipe_replicate n hfollow)
    have hamp : r.head? ≠ some .ampersand := fun hhead => nomatch hr _ hhead
    have hsemi : r.head? ≠ some .semicolon := fun hhead => nomatch hr _ hhead
    rw [append_assoc]
    exact (parseline_of_pipe hpipe (by omega) hamp).trans (if_neg hsemi)
  | @sequence p l t u hp n hl ihp ihl =>
    obtain ⟨N, hN⟩ := ihp
    obtain ⟨M, hM⟩ := ihl
    refine ⟨N + M + n + 2, fun fuel hfuel r hr => ?_⟩
    obtain ⟨fuel, rfl⟩ : ∃ k, fuel = k + 1 := ⟨fuel - 1, by omega⟩
    have hfollow : Follow .pipe (.semicolon :: (l ++ r)) := by
      rintro _ ⟨⟩
      simp
    have hpipe := hN fuel (by omega) _ (follow_pipe_replicate n hfollow)
    have hline : parseline tokenInput fuel (l ++ r) = .ok (u, r) := hM fuel (by omega) r hr
    have hstep := parseline_of_pipe hpipe (by omega) nofun
    rw [if_pos head?_cons, tail_cons, hline] at hstep
    rw [append_assoc, append_assoc]
    exact hstep
  | @one e t he ih =>
    obtain ⟨N, hN⟩ := ih
    refine ⟨N + 1, fun fuel hfuel r hr => ?_⟩
    obtain ⟨fuel, rfl⟩ : ∃ k, fuel = k + 1 := ⟨fuel - 1, by omega⟩
    have hexec := hN fuel (by omega) r fun tok htok => .inr (hr tok htok)
    have hbar : r.head? ≠ some .bar := by
      intro hhead
      rcases hr _ hhead with h | h | h <;> cases h
    exact (parsepipe_of_exec hexec).trans (if_neg hbar)
  | @pipe e p t u he hp ihe ihp =>
    obtain ⟨N, hN⟩ := ihe
    obtain ⟨M, hM⟩ := ihp
    refine ⟨N + M + 1, fun fuel hfuel r hr => ?_⟩
    obtain ⟨fuel, rfl⟩ : ∃ k, fuel = k + 1 := ⟨fuel - 1, by omega⟩
    have hfollow : Follow .exec (.bar :: (p ++ r)) := by
      rintro _ ⟨⟩
      simp
    have hexec := hN fuel (by omega) _ hfollow
    have hpipe : parsepipe tokenInput fuel (p ++ r) = .ok (u, r) := hM fuel (by omega) r hr
    have hstep := parsepipe_of_exec hexec
    rw [if_pos head?_cons, tail_cons, hpipe] at hstep
    rw [append_assoc]
    exact hstep
  | @block l c t rs hl hc ih =>
    obtain ⟨N, hN⟩ := ih
    refine ⟨N + c.length + 3, fun fuel hfuel r hr => ?_⟩
    obtain ⟨fuel, rfl⟩ : ∃ k, fuel = k + 2 := ⟨fuel - 2, by omega⟩
    have hline : parseline tokenInput fuel (l ++ .rparen :: (c ++ r)) = .ok (t, .rparen :: (c ++ r)) :=
      hN fuel (by omega) _ (by rintro _ ⟨⟩; rfl)
    have hredirs := redirs_complete hc (show c.length < fuel by omega) t (ExecFollow.noRedir hr)
    rw [cons_append, append_assoc]
    refine (parseexec_block fuel _).trans ?_
    rw [cons_append, hline]
    exact hredirs
  | @words c a rs rs' ws hc ha hmax =>
    refine ⟨c.length + a.length + 2, fun fuel hfuel r hr => ?_⟩
    obtain ⟨fuel, rfl⟩ : ∃ k, fuel = k + 1 := ⟨fuel - 1, by omega⟩
    have hredirs := redirs_complete hc (show c.length < fuel by omega) (.exec []) (ha.noRedir hr)
    have hwords := words_complete ha (show a.length < fuel by omega) [] rs
      (by rw [length_nil]; simp only [maxargs] at *; omega) hr
    rw [append_assoc]
    refine (parseexec_words fuel (head_ne_lparen hc ha hr)).trans ?_
    rw [hredirs]
    exact hwords

def Outcome (X : Nonterminal) (fuel : ℕ) (ts : List Token) : Prop :=
  (∃ msg, parse X fuel ts = .error (.panic msg)) ∨
    ∃ c t r, ts = c ++ r ∧ Derives X c t ∧ parse X fuel ts = .ok (t, r)

theorem line_outcome (hlen : ts.length < fuel) (hpipe : Outcome .pipe fuel ts)
    (hline : ∀ ts' : List Token, ts'.length < ts.length → Outcome .line fuel ts') :
    Outcome .line (fuel + 1) ts := by
  rcases hpipe with ⟨msg, hpanic⟩ | ⟨p, t, r, rfl, hp, hok⟩
  · refine .inl ⟨msg, ?_⟩
    change parseline tokenInput (fuel + 1) ts = _
    rw [parseline, show parsepipe tokenInput fuel ts = _ from hpanic]
    rfl
  · obtain ⟨n, r, rfl, hr⟩ := exists_replicate r
    rw [length_append, length_append, length_replicate] at hlen
    have hstep := parseline_of_pipe hok (by omega) hr
    by_cases hsemi : r.head? = some .semicolon
    · obtain ⟨r, rfl⟩ := head?_eq_some_iff.mp hsemi
      rw [if_pos head?_cons, tail_cons] at hstep
      rcases hline r (by simp; omega) with ⟨msg, hpanic⟩ | ⟨l, u, r', rfl, hl, hok'⟩
      · rw [show parseline tokenInput fuel r = _ from hpanic] at hstep
        exact .inl ⟨msg, hstep⟩
      · rw [show parseline tokenInput fuel (l ++ r') = _ from hok'] at hstep
        refine .inr ⟨_, _, r', ?_, .sequence hp n hl, hstep⟩
        simp
    · rw [if_neg hsemi] at hstep
      refine .inr ⟨_, _, r, ?_, .line hp n, hstep⟩
      simp

theorem pipe_outcome (hexec : Outcome .exec fuel ts)
    (hpipe : ∀ ts' : List Token, ts'.length < ts.length → Outcome .pipe fuel ts') :
    Outcome .pipe (fuel + 1) ts := by
  rcases hexec with ⟨msg, hpanic⟩ | ⟨e, t, r, rfl, he, hok⟩
  · refine .inl ⟨msg, ?_⟩
    change parsepipe tokenInput (fuel + 1) ts = _
    rw [parsepipe, show parseexec tokenInput fuel ts = _ from hpanic]
    rfl
  · have hstep := parsepipe_of_exec hok
    by_cases hbar : r.head? = some .bar
    · obtain ⟨r, rfl⟩ := head?_eq_some_iff.mp hbar
      rw [if_pos head?_cons, tail_cons] at hstep
      rcases hpipe r (by simp; omega) with ⟨msg, hpanic⟩ | ⟨p, u, r', rfl, hp, hok'⟩
      · rw [show parsepipe tokenInput fuel r = _ from hpanic] at hstep
        exact .inl ⟨msg, hstep⟩
      · rw [show parsepipe tokenInput fuel (p ++ r') = _ from hok'] at hstep
        refine .inr ⟨_, _, r', ?_, .pipe he hp, hstep⟩
        simp
    · rw [if_neg hbar] at hstep
      exact .inr ⟨e, t, r, rfl, .one he, hstep⟩

theorem block_outcome (hlen : ts.length < fuel) (hline : Outcome .line fuel ts) :
    Outcome .exec (fuel + 2) (.lparen :: ts) := by
  have hstep := parseexec_block fuel ts
  rcases hline with ⟨msg, hpanic⟩ | ⟨l, t, r, rfl, hl, hok⟩
  · rw [show parseline tokenInput fuel ts = _ from hpanic] at hstep
    exact .inl ⟨msg, hstep⟩
  · rw [show parseline tokenInput fuel (l ++ r) = _ from hok] at hstep
    change _ = if r.head? = some .rparen then parseredirs tokenInput fuel t r.tail
      else .error (.panic "syntax - missing )") at hstep
    by_cases hclosed : r.head? = some .rparen
    · obtain ⟨r, rfl⟩ := head?_eq_some_iff.mp hclosed
      rw [if_pos head?_cons, tail_cons] at hstep
      have hlen' : r.length < fuel := by
        rw [length_append, length_cons] at hlen
        omega
      rcases redirs_sound t hlen' with ⟨msg, hpanic⟩ | ⟨c, rs, r', rfl, hc, -, hok'⟩
      · exact .inl ⟨msg, hstep.trans hpanic⟩
      · refine .inr ⟨_, _, r', ?_, .block hl hc, hstep.trans hok'⟩
        simp
    · rw [if_neg hclosed] at hstep
      exact .inl ⟨_, hstep⟩

theorem words_outcome (hlen : ts.length < fuel) (hhead : ts.head? ≠ some .lparen) :
    Outcome .exec (fuel + 1) ts := by
  have hstep := parseexec_words fuel hhead
  rcases redirs_sound (.exec []) hlen with ⟨msg, hpanic⟩ | ⟨c, rs, r, rfl, hc, hr, hok⟩
  · rw [hpanic] at hstep
    exact .inl ⟨msg, hstep⟩
  · rw [hok] at hstep
    change _ = argLoop tokenInput fuel 0 (wrap (.exec []) rs) r at hstep
    rw [length_append] at hlen
    have hlen' : r.length < fuel := by omega
    rcases words_sound hlen' [] rs hr (by decide) with ⟨msg, hpanic⟩ |
      ⟨a, ws, rs', r', rfl, ha, -, hmax, hok'⟩
    · exact .inl ⟨msg, hstep.trans hpanic⟩
    · refine .inr ⟨_, _, r', ?_, .words hc ha ?_, hstep.trans hok'⟩
      · simp
      · rw [length_nil] at hmax
        omega

theorem outcome (fuel : ℕ) :
    (∀ ts : List Token, 4 * ts.length + 4 ≤ fuel → Outcome .line fuel ts) ∧
    (∀ ts : List Token, 4 * ts.length + 3 ≤ fuel → Outcome .pipe fuel ts) ∧
    ∀ ts : List Token, 4 * ts.length + 2 ≤ fuel → Outcome .exec fuel ts := by
  induction fuel using Nat.strong_induction_on with
  | _ fuel ih =>
    refine ⟨fun ts hfuel => ?_, fun ts hfuel => ?_, fun ts hfuel => ?_⟩
    · obtain ⟨fuel, rfl⟩ : ∃ k, fuel = k + 1 := ⟨fuel - 1, by omega⟩
      obtain ⟨hline, hpipe, -⟩ := ih fuel (by omega)
      exact line_outcome (by omega) (hpipe ts (by omega)) fun ts' hlt => hline ts' (by omega)
    · obtain ⟨fuel, rfl⟩ : ∃ k, fuel = k + 1 := ⟨fuel - 1, by omega⟩
      obtain ⟨-, hpipe, hexec⟩ := ih fuel (by omega)
      exact pipe_outcome (hexec ts (by omega)) fun ts' hlt => hpipe ts' (by omega)
    · by_cases hhead : ts.head? = some .lparen
      · obtain ⟨ts, rfl⟩ := head?_eq_some_iff.mp hhead
        rw [length_cons] at hfuel
        obtain ⟨fuel, rfl⟩ : ∃ k, fuel = k + 2 := ⟨fuel - 2, by omega⟩
        exact block_outcome (by omega) ((ih fuel (by omega)).1 ts (by omega))
      · obtain ⟨fuel, rfl⟩ : ∃ k, fuel = k + 1 := ⟨fuel - 1, by omega⟩
        exact words_outcome (by omega) hhead

end Xv6MallocLab.Shell
