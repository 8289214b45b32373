import Evlis.Proofs.Coherence
import Evlis.Proofs.Replay
import Evlis.Proofs.WellFormedness

/-!
# Sharing out operands does not change results

Whatever the order in which the tasks of a pool make their steps, and whichever operands are handed
over: if evaluation in order gives a value, so does the pool, and the other way round; the values
look the same when they are printed, and the lines printed on the way are the same up to their
order.
-/

namespace Evlis

lemma State.view_foresees (s : State Unit) : s.view.Foresees s := by
  intro n names values hn
  rw [State.view, hn]
  rfl

/-- Frames that are safe, each with itself. -/
def Itself (s : State Unit) (n m : Nat) : Prop := n = m ∧ Safe s [] n

lemma Linked.itself {s : State Unit} {env : Env Unit} (h : EnvWithin (Safe s []) env) :
    Linked (Itself s) env env :=
  List.forall₂_same.mpr fun rib hrib => ⟨rfl, h rib hrib⟩

lemma Value.Within.itself {s : State Unit} {v : Value Unit} (h : v.Within (Safe s [])) :
    v.Similar (Linked (Itself s)) v := by
  refine Value.Similar.mono ?_ h
  rintro env _ ⟨rfl, henv⟩
  exact Linked.itself henv

/-- A state mirrors what is known of it later, as far as it is filled. -/
lemma View.Foresees.mirrors {F : View} {s : State Unit} (h : F.Foresees s) :
    Mirrors (Itself s) F s := by
  refine ⟨?_, ?_⟩
  · rintro n _ ⟨rfl, hn⟩
    rcases confined_safe s [] n hn with ⟨-, hmem⟩ | ⟨names, values, hfilled, hnames, hvalues⟩
    · cases hmem
    · refine ⟨_, hfilled, ?_⟩
      rw [h n names values hfilled]
      exact .filled hnames.itself hvalues.itself
  · rintro n _ n' _ ⟨rfl, -⟩ ⟨rfl, -⟩ _ _
    exact Iff.rfl

namespace Pool.IsCoherent

variable {early : Prop} {e : Value Unit} {env : Env Unit} {start : State Unit} {p : Pool Unit}
  {thread : Thread Unit}

/-- The outcome of the caller is one that its expression has in hindsight. -/
lemma caller_settles (h : p.IsCoherent early (e, env) start) (hcaller : p.caller? = some thread) :
    ∃ F : View, F.Foresees start ∧
      (∀ fault, thread.outcome? = some (.error fault) →
        Settles early F (.expr e env) (.error fault)) ∧
      ∀ v, thread.outcome? = some (.ok v) → ∃ lines : Multiset String,
        Settles early F (.expr e env) (.ok (v, lines)) ∧
          (p.state.printed.toList : Multiset String) = start.printed.toList + lines := by
  obtain ⟨live, E, hcoherent, htracks⟩ := h
  obtain ⟨task, htask, rfl⟩ := Option.map_eq_some_iff.mp hcaller
  have hlive := hcoherent.family.caller
  have hthread := (htracks 0 task htask).1
  have hsettles := (hcoherent.sound 0 hlive).settles p.state.view p.state.view_foresees
    (fun k => (E k).origin) fun _ _ => rfl
  rw [hcoherent.family.root, View.mask_nil, hcoherent.origin, ← hthread] at hsettles
  refine ⟨p.state.view, hcoherent.past _ p.state.view_foresees, ?_, ?_⟩
  · intro fault houtcome
    refine hsettles (.error fault) ⟨.error fault, ?_, .fault _ fault⟩
    rw [Thread.of_outcome_error houtcome]
    rfl
  · intro v houtcome
    have hgives := Thread.of_outcome_ok houtcome
    have hvalue := hsettles (.ok (v, 0)) (by
      rw [hgives]
      exact ⟨.ok (v, 0), rfl, .nil _⟩)
    rw [Outcome.after_ok, add_zero] at hvalue
    have halone : live = {0} := by
      refine Finset.eq_singleton_iff_unique_mem.mpr ⟨hlive, fun k hk => ?_⟩
      exact hcoherent.family.eq_zero_of_caller (hthread.symm.trans hgives) hk
    refine ⟨(E 0).lines, hvalue, ?_⟩
    rw [hcoherent.printed, halone, Finset.sum_singleton]

/-- If the caller fails, evaluation in order gives no value. -/
lemma not_derives (h : p.IsCoherent early (e, env) start) (he : e.Within (Safe start []))
    (henv : EnvWithin (Safe start []) env) (hcaller : p.caller? = some thread) {fault : Fault}
    (hfails : thread.outcome? = some (.error fault)) (v : Value Unit) (s' : State Unit) :
    ¬ Derives (.expr e env) start (.ok v) s' := by
  obtain ⟨F, hF, hfault, -⟩ := h.caller_settles hcaller
  refine replays_of_settles (hfault fault hfails) (Itself start) start (.expr e env) ?_ ?_ v s'
  · rw [Goal.hidden, View.mask_nil]
    exact hF.mirrors
  · exact .expr he.itself (Linked.itself henv)

/-- If the caller gives a value, evaluation in order gives a similar one. -/
lemma exists_derives (h : p.IsCoherent early (e, env) start) (he : e.Within (Safe start []))
    (henv : EnvWithin (Safe start []) env) (hcaller : p.caller? = some thread) {w : Value Unit}
    (hgives : thread.outcome? = some (.ok w)) :
    ∃ v s', Derives (.expr e env) start (.ok v) s' ∧ w.print .none = v.print .none ∧
      p.state.printed.toList.Perm s'.printed.toList := by
  obtain ⟨F, hF, -, hvalue⟩ := h.caller_settles hcaller
  obtain ⟨lines, hsettles, hprinted⟩ := hvalue w hgives
  obtain ⟨-, ρ, v, s', hderives, hreplayed⟩ := replays_of_settles hsettles (Itself start) start
    (.expr e env) (by rw [Goal.hidden, View.mask_nil]; exact hF.mirrors)
    (.expr he.itself (Linked.itself henv))
  obtain ⟨more, hmore, rfl⟩ := hreplayed.printed
  refine ⟨v, s', hderives, hreplayed.value.print_eq .none, ?_⟩
  rw [← Multiset.coe_eq_coe, hprinted, hmore, Multiset.coe_add]

end Pool.IsCoherent

def Pool.ofProgram (crew : Crew) (program : SExpr) (s : State Unit) : Pool Unit :=
  let s := s.log (.programRead program)
  let (expr, s) := s.load program
  let (env, s) := s.globalEnv
  .ofThread crew (.start expr env) s

lemma globalEnv_within (s : State Unit) : EnvWithin (Safe s.globalEnv.2 []) s.globalEnv.1 := by
  have hlist : State.list (globalNames.map .atom) s =
      ((globalNames.map Value.atom).reverse.foldl (fun tail v => .pair () v tail) .nil, s) := by
    rw [State.list, State.chain_unit]
  have hnames : (State.list (globalNames.map .atom) s).1.Within (Safe s []) := by
    rw [hlist]
    refine .chain ?_ (.atom "nil")
    intro v hv
    obtain ⟨name, -, rfl⟩ := List.mem_map.mp (List.mem_reverse.mp hv)
    exact .atom name
  rw [State.globalEnv]
  generalize State.list (globalNames.map .atom) s = r at hlist hnames
  subst hlist
  exact EnvWithin.cons (Safe.new_filled hnames hnames rfl) nofun

/-- Evaluating a program in order, by the reference semantics. -/
lemma exists_eval_iff_outcome {code : String} {program : SExpr}
    (accepted : read none code = .ok program) (s s' : State Unit)
    (outcome : Except Fault (Value Unit)) :
    (∃ fuel, Interpreter.eval fuel .none ⟨.inOrder⟩ code s = some (outcome, ⟨.inOrder⟩, s')) ↔
      Derives (.expr (Value.ofSExpr program) (s.log (.programRead program)).globalEnv.1)
        (s.log (.programRead program)).globalEnv.2 outcome s' := by
  rw [← Machine.exists_run_iff_derives]
  apply exists_congr
  intro fuel
  rw [← evaluate_inOrder_iff_run, Interpreter.eval, Interpreter.load]
  have hread : read Limits.none.nesting code = .ok program := accepted
  rw [hread]
  dsimp only
  rw [State.load_unit]
  dsimp only
  generalize Evaluation.evaluate fuel .none .inOrder (Value.ofSExpr program) _ _ = result
  rcases result with _ | ⟨outcome', strategy, s₁⟩
  · simp
  · simp

lemma exists_eval_iff_derives {code : String} {program : SExpr}
    (accepted : read none code = .ok program) (s s' : State Unit) (v : Value Unit) :
    (∃ fuel, Interpreter.eval fuel .none ⟨.inOrder⟩ code s = some (.ok v, ⟨.inOrder⟩, s')) ↔
      Derives (.expr (Value.ofSExpr program) (s.log (.programRead program)).globalEnv.1)
        (s.log (.programRead program)).globalEnv.2 (.ok v) s' :=
  exists_eval_iff_outcome accepted s s' (.ok v)

lemma Crew.refusal_of_ofSize {workers : Int} {crew : Crew} (hired : ofSize workers = .ok crew) :
    crew.refusal = none := by
  rw [ofSize] at hired
  split at hired
  · cases hired
  · cases hired
    rfl

lemma Pool.ofProgram_eq (crew : Crew) (program : SExpr) (s : State Unit) :
    Pool.ofProgram crew program s = .ofThread crew
      (.start (Value.ofSExpr program) (s.log (.programRead program)).globalEnv.1)
      (s.log (.programRead program)).globalEnv.2 := by
  rw [Pool.ofProgram, State.load_unit]

/-- A program that has been read can be on its way to every outcome that it has. -/
lemma Pool.isCoherent_ofProgram (early : Prop) (crew : Crew) (program : SExpr) (s : State Unit) :
    (Pool.ofProgram crew program s).IsCoherent early
      (Value.ofSExpr program, (s.log (.programRead program)).globalEnv.1)
      (s.log (.programRead program)).globalEnv.2 := by
  rw [ofProgram_eq]
  exact IsCoherent.ofThread crew (.ofSExpr program) (globalEnv_within _)

lemma Pool.balanced_ofProgram (crew : Crew) (program : SExpr) (s : State Unit) :
    Balanced crew (Pool.ofProgram crew program s) := by
  rw [ofProgram_eq]
  exact Balanced.start crew _ _ _

/-- Whatever the schedule, the tasks of a program stay on their way. -/
lemma Pool.isCoherent_of_program {workers : Int} {crew : Crew}
    (hired : Crew.ofSize workers = .ok crew) {free : Nat} (fits : free ≤ crew.slots)
    {program : SExpr} {s : State Unit} {p : Pool Unit}
    (run : (Pool.ofProgram { crew with free } program s).Reaches .none p) :
    p.IsCoherent True (Value.ofSExpr program, (s.log (.programRead program)).globalEnv.1)
      (s.log (.programRead program)).globalEnv.2 := by
  have hwelcome : crew.refusal = none := Crew.refusal_of_ofSize hired
  exact (isCoherent_ofProgram True { crew with free } program s).reaches trivial
    (balanced_ofProgram _ program s) fits hwelcome run

/-- For every program, every size of the crew, every number of slots that are taken from elsewhere,
and every schedule: if evaluation in order gives a value, then the caller does not fail, and when it
has come to its end it has a value with the same printed form, and the lines that have been printed
are the same up to their order. If the caller has a value, then evaluation in order gives one, with
the same printed form. -/
theorem shared_agrees_with_inOrder {code : String} {program : SExpr}
    (accepted : read none code = .ok program) {workers : Int} {crew : Crew}
    (hired : Crew.ofSize workers = .ok crew) {free : Nat} (fits : free ≤ crew.slots)
    (s : State Unit) {p : Pool Unit}
    (run : (Pool.ofProgram { crew with free } program s).Reaches .none p) :
    (∀ fuel v s', Interpreter.eval fuel .none ⟨.inOrder⟩ code s =
        some (.ok v, ⟨.inOrder⟩, s') →
      ∀ outcome, p.caller?.bind Thread.outcome? = some outcome →
        ∃ w, outcome = .ok w ∧ w.print .none = v.print .none ∧
          p.state.printed.toList.Perm s'.printed.toList) ∧
    ∀ w, p.caller?.bind Thread.outcome? = some (.ok w) →
      ∃ fuel v s', Interpreter.eval fuel .none ⟨.inOrder⟩ code s =
        some (.ok v, ⟨.inOrder⟩, s') ∧ w.print .none = v.print .none := by
  have hcoherent := Pool.isCoherent_of_program hired fits run
  have hprogram : (Value.ofSExpr program).Within
      (Safe (s.log (.programRead program)).globalEnv.2 []) := .ofSExpr program
  have hglobal := globalEnv_within (s.log (.programRead program))
  refine ⟨?_, ?_⟩
  · intro fuel v s' heval outcome houtcome
    have hderives := (exists_eval_iff_derives accepted s s' v).mp ⟨fuel, heval⟩
    obtain ⟨thread, hcaller, hthread⟩ := Option.bind_eq_some_iff.mp houtcome
    cases outcome with
    | error fault =>
      exact absurd hderives (hcoherent.not_derives hprogram hglobal hcaller hthread v s')
    | ok w =>
      obtain ⟨v₁, s₁, hderives₁, hprint, hlines⟩ :=
        hcoherent.exists_derives hprogram hglobal hcaller hthread
      obtain ⟨hv, rfl⟩ := hderives₁.unique hderives
      cases hv
      exact ⟨w, rfl, hprint, hlines⟩
  · intro w hgives
    obtain ⟨thread, hcaller, hthread⟩ := Option.bind_eq_some_iff.mp hgives
    obtain ⟨v, s', hderives, hprint, -⟩ :=
      hcoherent.exists_derives hprogram hglobal hcaller hthread
    obtain ⟨fuel, heval⟩ := (exists_eval_iff_derives accepted s s' v).mpr hderives
    exact ⟨fuel, v, s', heval, hprint⟩

/-- Two tasks that print their lines in the opposite order. -/
theorem shared_agrees_when_last_prints_first :
    let code := "(list 1 (print 2) (print 3))"
    let program := SExpr.ofList [.atom "list", .atom "1", .ofList [.atom "print", .atom "2"],
      .ofList [.atom "print", .atom "3"]]
    let w : Value Unit := .ofSExpr (.ofList [.atom "1", .atom "2", .atom "3"])
    read none code = .ok program ∧ Crew.ofSize 2 = .ok ⟨2, 2, none⟩ ∧
      ∃ p, (Pool.ofProgram ⟨2, 2, none⟩ program .empty).Reaches .none p ∧
        p.caller?.bind Thread.outcome? = some (.ok w) ∧ p.state.printed.toList = ["3", "2"] ∧
        ∃ fuel v s', Interpreter.eval fuel .none ⟨.inOrder⟩ code .empty =
            some (.ok v, ⟨.inOrder⟩, s') ∧
          w.print .none = v.print .none ∧ ["3", "2"].Perm s'.printed.toList := by
  intro code program w
  have accepted : read none code = .ok program := by decide +kernel
  have hired : Crew.ofSize 2 = .ok ⟨2, 2, none⟩ := rfl
  -- the caller hands over two operands; their tasks find no slots for operands of their own
  let schedule := List.replicate 8 0 ++ List.replicate 10 2 ++ List.replicate 12 1 ++ [2, 2, 0, 0, 0]
  have hrun : ((Pool.ofProgram ⟨2, 2, none⟩ program .empty).follow .none schedule).map
      (fun p => (p.caller?.bind Thread.outcome?, p.state.printed.toList)) =
        some (some (.ok w), ["3", "2"]) := by decide +kernel
  obtain ⟨p, hfollow, hp⟩ := Option.map_eq_some_iff.mp hrun
  obtain ⟨hgives, hprinted⟩ := Prod.mk.inj hp
  have hreaches := Pool.reaches_of_follow hfollow
  obtain ⟨hforward, hback⟩ :=
    shared_agrees_with_inOrder accepted hired (Nat.le_refl 2) .empty hreaches
  obtain ⟨fuel, v, s', heval, hprint⟩ := hback w hgives
  obtain ⟨-, -, -, hlines⟩ := hforward fuel v s' heval _ hgives
  rw [hprinted] at hlines
  exact ⟨accepted, hired, p, hreaches, hgives, hprinted, fuel, v, s', heval, hprint, hlines⟩

end Evlis
