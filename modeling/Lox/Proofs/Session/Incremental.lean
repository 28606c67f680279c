import Lox.Proofs.Lines.Grammar
import Lox.Proofs.Lines.Machine
import Lox.Proofs.Lines.Scoping
import Lox.Proofs.Machine.Restoration
import Lox.Proofs.Session.Agreement

/-!
# Two texts as one

A text that runs to its end leaves the session in which the text after it starts, so two texts may
as well be handed over as one, with a line break in between. All that this changes is that the lines
of the second text are larger. To say which lines these are, lines are marked with where they come
from, and one run with marks stands for both: the marks are taken off in two ways.
-/

set_option autoImplicit false

namespace Lox

/-! ## One program after the other -/

namespace Machine

theorem Above.of_atEnd {line : Nat} {rest : List Stmt} {env : Env} {depth : Nat} {m : Machine}
    (h : Above [.top line rest] .completion env depth m) (hend : m.AtEnd) :
    m = ⟨.completed .normal, [.top line []], m.world⟩ := by
  obtain ⟨line', frames, w, rfl⟩ := hend
  obtain ⟨inner, hframes, htop, -⟩ := h
  cases inner with
  | nil =>
    cases hframes
    rfl
  | cons frame inner =>
    obtain ⟨rfl, -⟩ := List.cons.inj hframes
    exact absurd (htop _ List.mem_cons_self) (by simp [Frame.isTop])

/-- A program that ends without an error has completed its last statement. -/
theorem reaches_end {m : Machine} {n : Nat} {w : World}
    (h : ∃ line rest, Above [.top line rest] .completion World.topEnv 0 m)
    (hresult : (m.after n).programResult? = some (.ok (), w)) :
    ∃ i line, m.after i = ⟨.completed .normal, [.top line []], w⟩ ∧
      ∀ j < i, ¬ (m.after j).AtEnd := by
  induction n generalizing m with
  | zero =>
    obtain ⟨line, rest, inner, hframes, -⟩ := h
    obtain ⟨hfinal, -⟩ := isFinal_of_programResult? hresult
    have hnil := (handsOver_of_isFinal hfinal).1
    simp [after, hframes] at hnil
  | succ n ih =>
    obtain ⟨line, rest, h⟩ := h
    rw [after_succ] at hresult
    by_cases hend : m.AtEnd
    · have hm := h.of_atEnd hend
      have hstep : m.step = ⟨.completed .normal, [], m.world⟩ := by
        rw [hm]
        rfl
      rw [hstep, after_eq_self_of_isFinal rfl] at hresult
      obtain ⟨-, rfl, -⟩ := isFinal_of_programResult? hresult
      exact ⟨0, line, hm, by simp⟩
    · rcases h.step_top with habove | ⟨hfinal, -, -, hend' | ⟨e, hfocus⟩⟩
      · obtain ⟨i, line', hi, hbefore⟩ := ih habove hresult
        refine ⟨i + 1, line', by rw [after_succ, hi], ?_⟩
        intro j hj
        cases j with
        | zero => exact hend
        | succ j =>
          rw [after_succ]
          exact hbefore j (Nat.lt_of_succ_lt_succ hj)
      · exact absurd hend' hend
      · rw [after_eq_self_of_isFinal hfinal] at hresult
        have hframes := (handsOver_of_isFinal hfinal).1
        generalize m.step = m' at hfocus hframes hresult
        obtain ⟨focus, frames, w'⟩ := m'
        cases hfocus
        cases hframes
        cases hresult

/-- The line of the top level's frame is of no account while no statement is under way. -/
theorem result_of_top (line : Nat) (q : List Stmt) (w : World) (fuel : Nat) :
    ((⟨.completed .normal, [.top line q], w⟩ : Machine).after fuel).programResult? =
      ((running q w).after fuel).programResult? := by
  cases fuel with
  | zero => rfl
  | succ fuel =>
    rw [after_succ, after_succ]
    cases q <;> rfl

end Machine

namespace Session

/-- A program that is run to its end and the one after it are run as one. -/
theorem runTree_append {s s' : Session} (henv : s.env = World.topEnv) (hdepth : s.depth = 0)
    {fuel : Nat} {p : Program} (h : runTree fuel p s = some (.ok (), s')) :
    ∃ n, ∀ fuel q, runTree (n + fuel) (p ++ q) s = runTree fuel q s' := by
  unfold runTree at h
  rw [Machine.run_eq_after] at h
  have hstarts : Machine.Above [.top 0 p] .completion World.topEnv 0 (Machine.running p s) :=
    ⟨[], rfl, by simp, rfl, henv, hdepth⟩
  obtain ⟨n, line, hn, hbefore⟩ := Machine.reaches_end ⟨0, p, hstarts⟩ h
  refine ⟨n, fun fuel q => ?_⟩
  have hstart : (Machine.running p s).moved id q = Machine.running (p ++ q) s := by
    simp only [Machine.running, Machine.moved, Focus.mapLines, Completion.mapLines, List.map_cons,
      List.map_nil, Frame.moved, World.mapLines_id, id]
    rw [show mapLinesInBody id p = p from Program.mapLines_id p]
  have hend : Machine.moved id q ⟨.completed .normal, [.top line []], s'⟩ =
      ⟨.completed .normal, [.top line q], s'⟩ := by
    simp only [Machine.moved, Focus.mapLines, Completion.mapLines, List.map_cons, List.map_nil,
      Frame.moved, mapLinesInBody, World.mapLines_id, List.nil_append, id]
  have hmoved : (Machine.running (p ++ q) s).after n =
      ⟨.completed .normal, [.top line q], s'⟩ := by
    rw [← hstart, Machine.after_moved rfl (.inr hbefore), hn, hend]
  unfold runTree
  rw [Machine.run_eq_after, Machine.run_eq_after, Machine.after_add, hmoved, Machine.result_of_top]

end Session

/-! ## Marks -/

/-- Marks a line of a text that was run earlier. -/
def earlier (line : Nat) : Nat := 2 * line

/-- Marks a line of the text that is run now. -/
def current (line : Nat) : Nat := 2 * line + 1

/-- Takes the marks off. The lines of the text that is run now are then larger by `k`. -/
def unmark (k : Nat) (mark : Nat) : Nat :=
  if mark % 2 = 0 then mark / 2 else mark / 2 + k

theorem unmark_earlier (k : Nat) : unmark k ∘ earlier = id := by
  funext line
  simp [unmark, earlier]

theorem unmark_current (k : Nat) : unmark k ∘ current = (· + k) := by
  funext line
  have hodd : ¬ (2 * line + 1) % 2 = 0 := by omega
  have hhalf : (2 * line + 1) / 2 = line := by omega
  simp only [Function.comp_apply, unmark, current, if_neg hodd, hhalf]

/-! ## Two texts in one -/

section Newline
variable {a b : String} (hcomment : endsInComment a = false)
include hcomment

theorem parseProgram_newline {p q : Program} (hp : parseProgram a = .ok p)
    (hq : parseProgram b = .ok q) :
    parseProgram (a ++ "\n" ++ b) = .ok (p ++ q.mapLines (· + linesBefore a)) := by
  obtain ⟨hscanned, hp⟩ := withLexical_eq_ok hp
  obtain ⟨hscanned', hq⟩ := withLexical_eq_ok hq
  have hlexical := lexErrors_newline b hscanned hcomment
  rw [hscanned', List.map_nil] at hlexical
  obtain ⟨ts, eof, hts, hboth⟩ := tokens_newline b hscanned hcomment
  obtain ⟨ts', eof', hts', heof', hproper'⟩ := tokens_proper b
  obtain ⟨ts₁, eof₁, hts₁, heof, hproper⟩ := tokens_proper a
  obtain ⟨rfl, hlast⟩ := List.append_inj' (hts.symm.trans hts₁) rfl
  obtain rfl := List.head_eq_of_cons_eq hlast
  rw [hts] at hp
  rw [hts'] at hq hboth
  have hparsed := Grammar.parseProgram_append (fun t ht => (hproper t ht).1) heof
    (fun t ht => (hproper' t ht).1) heof' hp hq (· + linesBefore a)
  unfold parseProgram
  rw [hlexical, hboth, hparsed]
  rfl

/-- A text that follows another one after a line break is read and resolved as it is alone, on its
own lines. -/
theorem accepted_newline {p q : Program} (hp : parseProgram a >>= resolveProgram = .ok p)
    (hq : parseProgram b >>= resolveProgram = .ok q) :
    parseProgram (a ++ "\n" ++ b) >>= resolveProgram =
      .ok (p ++ q.mapLines (· + linesBefore a)) := by
  obtain ⟨p₀, hparsed, hp⟩ := bind_eq_ok hp
  obtain ⟨q₀, hparsed', hq⟩ := bind_eq_ok hq
  have hregular := regular_of_parsed_program (withLexical_eq_ok hparsed).2
  have hresolved := hregular.resolved_append (resolved_of_resolveProgram hp)
    (Program.resolved_mapLines (f := (· + linesBefore a)) (resolved_of_resolveProgram hq))
  rw [parseProgram_newline hcomment hparsed hparsed']
  change resolveProgram _ = _
  rw [resolveProgram, hresolved]
  rfl

end Newline

namespace Session

/-- Runs a program where every line is marked with where it comes from. -/
def runMarked (fuel : Nat) (p : Program) (s : Session) : Option (Except Error Unit × Session) :=
  runTree fuel (p.mapLines current) (s.mapLines earlier)

theorem runTree_shifted (k fuel : Nat) (p : Program) (s : Session) :
    runTree fuel (p.mapLines (· + k)) s = (runMarked fuel p s).map (mapLinesInRun (unmark k)) := by
  have hprogram : p.mapLines (· + k) = (p.mapLines current).mapLines (unmark k) := by
    rw [p.mapLines_mapLines, unmark_current]
  have hsession : s = (s.mapLines earlier).mapLines (unmark k) := by
    rw [World.mapLines_mapLines, unmark_earlier, World.mapLines_id]
  rw [runMarked, ← runTree_mapLines rfl, ← hprogram, ← hsession]

theorem run_of_accepted {source : String} {p : Program}
    (h : parseProgram source >>= resolveProgram = .ok p) (fuel : Nat) (s : Session) :
    run fuel source s = runTree fuel p s := by
  unfold run
  rw [h]

theorem accepted_of_run {source : String} {fuel : Nat} {s s' : Session}
    (h : run fuel source s = some (.ok (), s')) :
    ∃ p, parseProgram source >>= resolveProgram = .ok p ∧ runTree fuel p s = some (.ok (), s') := by
  cases haccepted : parseProgram source >>= resolveProgram with
  | error e =>
    unfold run at h
    rw [haccepted] at h
    cases h
  | ok p => exact ⟨p, rfl, run_of_accepted haccepted fuel s ▸ h⟩

theorem sink_mapLinesInRun (f : Nat → Nat) (r : Option (Except Error Unit × Session)) :
    (r.map (mapLinesInRun f)).map (·.2.sink) = r.map (·.2.sink) := by
  cases r <;> rfl

/-- A text is run after another one as both are run as one text, with a line break between them. In
both cases the outcome is that of one run in which every line is marked with where it comes from:
the lines of the second text are its own in the first case, and in the other they are larger by
the number of lines that stand before it. -/
theorem joined_sources_same_run {s s' : Session} (hs : s.Reachable) {a b : String} {fuel : Nat}
    {q : Program} (ha : run fuel a s = some (.ok (), s'))
    (hcomment : endsInComment a = false) (hb : parseProgram b >>= resolveProgram = .ok q) :
    ∃ n, ∀ fuel,
      run fuel b s' = (runMarked fuel q s').map (mapLinesInRun (unmark 0)) ∧
      run (n + fuel) (a ++ "\n" ++ b) s =
        (runMarked fuel q s').map (mapLinesInRun (unmark (linesBefore a))) ∧
      (run (n + fuel) (a ++ "\n" ++ b) s).map (·.2.sink) = (run fuel b s').map (·.2.sink) := by
  obtain ⟨p, hp, hrun⟩ := accepted_of_run ha
  obtain ⟨henv, hdepth⟩ := hs.at_top
  obtain ⟨n, hn⟩ := runTree_append henv hdepth hrun
  refine ⟨n, fun fuel => ?_⟩
  have hsecond : run fuel b s' = (runMarked fuel q s').map (mapLinesInRun (unmark 0)) := by
    rw [run_of_accepted hb, ← runTree_shifted]
    exact congrArg (runTree fuel · s') q.mapLines_id.symm
  have hjoined : run (n + fuel) (a ++ "\n" ++ b) s =
      (runMarked fuel q s').map (mapLinesInRun (unmark (linesBefore a))) := by
    rw [run_of_accepted (accepted_newline hcomment hp hb), hn, runTree_shifted]
  refine ⟨hsecond, hjoined, ?_⟩
  rw [hsecond, hjoined, sink_mapLinesInRun, sink_mapLinesInRun]

theorem eq_ok_of_isOk {ε α : Type} {result : Except ε α} (h : result.isOk = true) :
    ∃ a, result = .ok a := by
  cases result with
  | error e => cases h
  | ok a => exact ⟨a, rfl⟩

/-- The first text ends in a comment that would open another one. The second text fails on its
second line, which is the fourth of the joined text. -/
theorem joined_sources_same_run_comment :
    let a := "fun f() \x7b \x7d\n// /*"
    let b := "f();\nnil();"
    let s := Session.new .unlimited fun _ => 0
    linesBefore a = 2 ∧ endsInComment a = false ∧ (parseProgram b >>= resolveProgram).isOk = true ∧
      ∃ (s' : Session) (n : Nat) (e : Error) (s₁ : Session),
        run 40 a s = some (.ok (), s') ∧
        run 40 b s' = some (.error (e.mapLines (unmark 0)), s₁.mapLines (unmark 0)) ∧
        run (n + 40) (a ++ "\n" ++ b) s =
          some (.error (e.mapLines (unmark 2)), s₁.mapLines (unmark 2)) := by
  intro a b s
  have hlines : linesBefore a = 2 := by decide +kernel
  have hcomment : endsInComment a = false := by decide +kernel
  have haccepted : (parseProgram b >>= resolveProgram).isOk = true := by decide +kernel
  have hok : ((run 40 a s).any fun r => r.1.isOk) = true := by decide +kernel
  have hfails : ((run 40 a s).any fun r => (run 40 b r.2).any fun r => !r.1.isOk) = true := by
    decide +kernel
  refine ⟨hlines, hcomment, haccepted, ?_⟩
  obtain ⟨q, hq⟩ := eq_ok_of_isOk haccepted
  obtain ⟨⟨result, s'⟩, hrun, hresult⟩ := (Option.any_eq_true _ _).1 hok
  obtain ⟨u, rfl⟩ := eq_ok_of_isOk hresult
  rw [hrun] at hfails
  obtain ⟨n, hn⟩ := joined_sources_same_run (.new .unlimited fun _ => 0) hrun hcomment hq
  obtain ⟨hsecond, hjoined, -⟩ := hn 40
  rw [hlines] at hjoined
  cases hmarked : runMarked 40 q s' with
  | none =>
    rw [hmarked] at hsecond
    rw [Option.any_some, hsecond] at hfails
    cases hfails
  | some marked =>
    obtain ⟨result, s₁⟩ := marked
    rw [hmarked] at hsecond hjoined
    cases result with
    | ok u =>
      rw [Option.any_some, hsecond] at hfails
      cases hfails
    | error e => exact ⟨s', n, e, s₁, hrun, hsecond, hjoined⟩

end Session

end Lox
