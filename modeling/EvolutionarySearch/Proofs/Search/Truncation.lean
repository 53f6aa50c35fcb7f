import EvolutionarySearch.Proofs.Search.Grammar
import EvolutionarySearch.Proofs.Search.Mirror
import Mathlib.Data.List.Forall2

/-!
# What a time limit does

A time limit cuts a session off and changes nothing else. Beside a search without a limit, or with a
later one, a limited search goes through the same states until one of its deadline checks fails. The
clocks of the two need not agree.

* `Abreast.legs` — the answers of two sessions, of which the first is out of time no later
* `session_truncates` — a time limit truncates the answers
-/

namespace EvolutionarySearch.Search

variable {ω Gene Fitness : Type}

/-- A step whose deadline check fails. -/
def Stride.Late [Clock ω] (cfg : Config) (stride : Stride ω Gene Fitness) : Prop :=
  stride.before.phase ≠ .ended ∧ stride.before.expired cfg stride.world = true

/--
The answers of a number of pulls, of which the first `k` are as given. The next one is a timeout
with the last of the new bests, and all after it are empty.
-/
def cut (first : Chromosome Gene Fitness) (pulls k : Nat) (answers : List (Answer Gene Fitness)) :
    List (Answer Gene Fitness) :=
  answers.take k ++ some (.ok (.timedOut ((bests (answers.take k)).getLastD first))) ::
    List.replicate (pulls - k - 1) none

/-- Two changes of the world that leave alike worlds alike. -/
def SameChange (alike : ω → ω → Prop) (change change' : ω → ω) : Prop :=
  ∀ w w', alike w w' → alike (change w) (change' w')

/--
The answers of a session with a time limit, beside the answers of another. They are the same if no
check has failed, and else the other ones are cut off.
-/
inductive Truncates [Clock ω] (cfg : Config) (first : Chromosome Gene Fitness) (pulls : Nat)
    (strides : List (Stride ω Gene Fitness)) (answers : List (Answer Gene Fitness)) :
    List (Answer Gene Fitness) → Prop where
  | inTime (hnone : ∀ stride ∈ strides, ¬stride.Late cfg) :
    Truncates cfg first pulls strides answers answers
  | late (hsome : ∃ stride ∈ strides, stride.Late cfg) {k : Nat} (hlength : k ≤ answers.length)
    (hpulls : k < pulls) :
    Truncates cfg first pulls strides answers (cut first pulls k answers)

variable [Ord Fitness] [WordSource ω] [Clock ω] [Std.TransOrd Fitness]
  {p : Problem ω Gene Fitness} {alike : ω → ω → Prop} {cfg : Config}
  {limit limit' : Option Duration} {s s' : Search Gene Fitness} {w w' : ω}

/-- The same search twice, but the second is never out of time before the first. -/
structure Abreast (alike : ω → ω → Prop) (cfg : Config) (limit limit' : Option Duration)
    (s s' : Search Gene Fitness) : Prop where
  mirrors : s.Mirrors id s'
  coherent : s.records.Coherent
  coherent' : s'.records.Coherent
  sooner : ∀ v v', alike v v' → s'.expired (cfg.within limit') v' = true →
    s.expired (cfg.within limit) v = true

omit [Ord Fitness] [WordSource ω] [Clock ω] [Std.TransOrd Fitness] in
theorem Progress.graded_id (progress : Progress Gene Fitness) : progress.graded id = progress := by
  cases progress with
  | pending => rfl
  | answered answer =>
    cases answer with
    | error error => rfl
    | ok improvement => cases improvement <;> rfl
  | ended => rfl

/-! ## Steps -/

namespace Abreast

variable (hp : Indistinct p alike) (h : Abreast alike cfg limit limit' s s')

include hp h

/-- The two go on together while the first has time. -/
theorem step (hw : alike w w')
    (htime : ¬(stride p (cfg.within limit) s w).Late (cfg.within limit)) :
    alike (Search.step p (cfg.within limit) s w).world
        (Search.step p (cfg.within limit') s' w').world ∧
      (Search.step p (cfg.within limit') s' w').progress
        = (Search.step p (cfg.within limit) s w).progress ∧
      Abreast alike cfg limit limit' (Search.step p (cfg.within limit) s w).search
        (Search.step p (cfg.within limit') s' w').search := by
  -- while the first has time the second has it too, so their deadlines agree
  have hlate : s.phase ≠ .ended →
      s'.expired (cfg.within limit') w' = s.expired (cfg.within limit) w := by
    intro hphase
    have hfirst : s.expired (cfg.within limit) w = false :=
      Bool.eq_false_iff.mpr fun hlate => htime ⟨hphase, hlate⟩
    have hsecond : s'.expired (cfg.within limit') w' = false := by
      refine Bool.eq_false_iff.mpr fun hlate => ?_
      rw [h.sooner w w' hw hlate] at hfirst
      cases hfirst
    rw [hfirst, hsecond]
  have hfaithful : Faithful (id : Fitness → Fitness) := fun _ _ => rfl
  obtain ⟨hmirrors, hworld, hprogress⟩ :=
    h.mirrors.step hfaithful hp p.display cfg limit limit' hw hlate
  have hsignal := step_signal p (cfg.within limit) w h.coherent
  have hsignal' := step_signal p (cfg.within limit') w' h.coherent'
  rw [Progress.graded_id] at hprogress
  refine ⟨hworld, hprogress, hmirrors, hsignal.coherent h.coherent,
    hsignal'.coherent h.coherent', ?_⟩
  -- a step leaves the time of the start alone
  intro v v' hv hexpired
  have hstarted : (Search.step p (cfg.within limit) s w).search.started = s.started :=
    hsignal.started
  have hstarted' : (Search.step p (cfg.within limit') s' w').search.started = s'.started :=
    hsignal'.started
  unfold expired elapsed at hexpired ⊢
  rw [hstarted]
  rw [hstarted'] at hexpired
  exact h.sooner v v' hv hexpired

end Abreast

omit [Std.TransOrd Fitness] in
theorem step_of_late (hlate : (stride p cfg s w).Late cfg) :
    Search.step p cfg s w = s.timeOut w := by
  obtain ⟨hphase, hexpired⟩ := hlate
  have hlate : s.expired cfg w = true := hexpired
  unfold Search.step
  cases hnow : s.phase with
  | ended => exact absurd hnow hphase
  | opening => exact if_pos hlate
  | running => exact if_pos hlate

/-! ## Pulls -/

/-- The same answer, of searches that can go on together. -/
structure Pull.Abreast (alike : ω → ω → Prop) (cfg : Config) (limit limit' : Option Duration)
    (pull pull' : Pull ω Gene Fitness) : Prop where
  answer : pull.answer = pull'.answer
  world : alike pull.world pull'.world
  search : Search.Abreast alike cfg limit limit' pull.search pull'.search

/-- The first search answers that it is out of time. -/
structure Pull.OutOfTime (best : Chromosome Gene Fitness) (pull : Pull ω Gene Fitness) : Prop where
  answer : pull.answer = some (.ok (.timedOut best))
  phase : pull.search.phase = .ended

namespace Abreast

/-- Either no check of a pull fails and the two go on together, or one does and ends the first. -/
theorem next (hp : Indistinct p alike) (h : Abreast alike cfg limit limit' s s')
    (hw : alike w w') (steps : Nat) :
    ((∀ stride ∈ strides p (cfg.within limit) steps s w, ¬stride.Late (cfg.within limit)) ∧
        Option.Rel (Pull.Abreast alike cfg limit limit')
          (Search.next p (cfg.within limit) steps s w)
          (Search.next p (cfg.within limit') steps s' w')) ∨
      ((∃ stride ∈ strides p (cfg.within limit) steps s w, stride.Late (cfg.within limit)) ∧
        ∃ pull, Search.next p (cfg.within limit) steps s w = some pull ∧
          pull.OutOfTime s.best) := by
  induction steps generalizing s s' w w' with
  | zero => exact .inl ⟨fun _ hstride => (by cases hstride), .none⟩
  | succ steps ih =>
    by_cases hlate : (stride p (cfg.within limit) s w).Late (cfg.within limit)
    · have hstep := step_of_late hlate
      refine .inr ⟨⟨_, ?_, hlate⟩, ⟨some (.ok (.timedOut s.best)), (s.timeOut w).search, w⟩, ?_,
        rfl, rfl⟩
      · simp only [strides, hstep, timeOut, List.mem_singleton]
      · simp only [Search.next, hstep, timeOut]
    · obtain ⟨hworld, hprogress, hnext⟩ := h.step hp hw hlate
      simp only [strides, Search.next]
      rw [hprogress]
      cases hcase : (Search.step p (cfg.within limit) s w).progress with
      | pending =>
        -- nothing is recorded without an answer, so a later timeout carries the same best
        have hbest : (Search.step p (cfg.within limit) s w).search.best = s.best :=
          congrArg Records.best (records_of_pending h.coherent hcase)
        dsimp only
        rcases ih hnext hworld with ⟨hnone, hrest⟩ | ⟨⟨stride, hmem, hlater⟩, hrest⟩
        · exact .inl ⟨List.forall_mem_cons.mpr ⟨hlate, hnone⟩, hrest⟩
        · rw [hbest] at hrest
          exact .inr ⟨⟨stride, List.mem_cons_of_mem _ hmem, hlater⟩, hrest⟩
      | answered answer =>
        exact .inl ⟨List.forall_mem_singleton.mpr hlate, .some ⟨rfl, hworld, hnext⟩⟩
      | ended =>
        exact .inl ⟨List.forall_mem_singleton.mpr hlate, .some ⟨rfl, hworld, hnext⟩⟩

end Abreast

/-! ## Sessions -/

omit [Ord Fitness] [WordSource ω] [Clock ω] [Std.TransOrd Fitness] in
theorem cut_cons (first : Chromosome Gene Fitness) (pulls k : Nat) (answer : Answer Gene Fitness)
    (answers : List (Answer Gene Fitness)) :
    cut first (pulls + 1) (k + 1) (answer :: answers)
      = answer :: cut ((bests [answer]).getLastD first) pulls k answers := by
  have hbests : (bests ((answer :: answers).take (k + 1))).getLastD first
      = (bests (answers.take k)).getLastD ((bests [answer]).getLastD first) := by
    rw [List.take_succ_cons, ← List.singleton_append, bests_append, List.getLastD_eq_getLast?,
      List.getLast?_append, Option.getD_or, List.getLastD_eq_getLast?, List.getLastD_eq_getLast?]
  unfold cut
  rw [hbests, List.take_succ_cons, Nat.add_sub_add_right, List.cons_append]

omit [Ord Fitness] [WordSource ω] [Std.TransOrd Fitness] in
/-- A pull in time comes in front of both. -/
theorem Truncates.cons {first : Chromosome Gene Fitness} {pulls : Nat}
    {pulled strides : List (Stride ω Gene Fitness)} {answer : Answer Gene Fitness}
    {answers limited : List (Answer Gene Fitness)} (hpulled : ∀ stride ∈ pulled, ¬stride.Late cfg)
    (h : Truncates cfg ((bests [answer]).getLastD first) pulls strides answers limited) :
    Truncates cfg first (pulls + 1) (pulled ++ strides) (answer :: answers)
      (answer :: limited) := by
  cases h with
  | inTime hnone => exact .inTime (List.forall_mem_append.mpr ⟨hpulled, hnone⟩)
  | late hsome hlength hpulls =>
    obtain ⟨stride, hmem, hlate⟩ := hsome
    rw [← cut_cons]
    exact .late ⟨stride, List.mem_append_right _ hmem, hlate⟩ (Nat.succ_le_succ hlength)
      (Nat.succ_lt_succ hpulls)

omit [Ord Fitness] [WordSource ω] [Std.TransOrd Fitness] in
theorem Truncates.bests_prefix {first : Chromosome Gene Fitness} {pulls : Nat}
    {strides : List (Stride ω Gene Fitness)} {answers limited : List (Answer Gene Fitness)}
    (h : Truncates cfg first pulls strides answers limited) : bests limited <+: bests answers := by
  cases h with
  | inTime hnone => exact List.prefix_refl _
  | @late hsome k hlength hpulls =>
    have hsilent : ∀ silent, bests (List.replicate silent (none : Answer Gene Fitness)) = [] := by
      intro silent
      unfold bests
      rw [List.filterMap_replicate_of_none rfl]
    have hcut : bests (cut first pulls k answers) = bests (answers.take k) := by
      unfold cut
      rw [bests_append, ← List.singleton_append, bests_append, hsilent, List.append_nil]
      exact List.append_nil _
    rw [hcut]
    exact (List.take_prefix k answers).filterMap _

/-- Of two sessions abreast, the answers of the second are truncated in the first. -/
theorem Abreast.legs (hp : Indistinct p alike) (h : Abreast alike cfg limit limit' s s')
    (hw : alike w w') (steps : Nat) {changes changes' : List (ω → ω)}
    (hchanges : List.Forall₂ (SameChange alike) changes changes') :
    Truncates (cfg.within limit) s.best changes.length
      ((Search.legs p (cfg.within limit) steps changes s w).flatMap (·.strides))
      ((Search.legs p (cfg.within limit') steps changes' s' w').map (·.pull.answer))
      ((Search.legs p (cfg.within limit) steps changes s w).map (·.pull.answer)) := by
  induction hchanges generalizing s s' w w' with
  | nil => exact .inTime fun _ hstride => (by cases hstride)
  | @cons change change' changes changes' hchange _ ih =>
    simp only [Search.legs]
    rcases h.next hp (hchange w w' hw) steps with
      ⟨hnone, hpulls⟩ | ⟨⟨stride, hmem, hlate⟩, pull, hnext, hanswer, hphase⟩
    · -- in time: both pulls are without a result, or both go on from searches abreast
      cases hfirst : Search.next p (cfg.within limit) steps s (change w) with
      | none =>
        rw [hfirst] at hpulls
        cases hsecond : Search.next p (cfg.within limit') steps s' (change' w') with
        | none => exact .inTime fun _ hstride => (by cases hstride)
        | some pull' => rw [hsecond] at hpulls; cases hpulls
      | some pull =>
        rw [hfirst] at hpulls
        cases hsecond : Search.next p (cfg.within limit') steps s' (change' w') with
        | none => rw [hsecond] at hpulls; cases hpulls
        | some pull' =>
          rw [hsecond] at hpulls
          obtain ⟨hanswer, hworld, hsearch⟩ := Option.rel_some_some.mp hpulls
          have hrest := ih hsearch hworld
          rw [← best_of_next h.coherent hfirst] at hrest
          simp only [List.flatMap_cons, List.map_cons, List.length_cons]
          rw [← hanswer]
          exact hrest.cons hnone
    · -- out of time: whatever the second pull is, it is cut off with all after it
      obtain ⟨rest, rfl⟩ := exists_steps_of_next hnext
      rw [hnext]
      simp only [List.flatMap_cons, List.map_cons, List.length_cons]
      rw [answers_of_ended hphase, hanswer]
      exact .late ⟨stride, List.mem_append_left _ hmem, hlate⟩ (Nat.zero_le _) (Nat.succ_pos _)

omit [Ord Fitness] [Std.TransOrd Fitness] in
/-- Two searches that are started in alike worlds start abreast, or fail with the same error. -/
theorem Abreast.start (hp : Indistinct p alike) (hw : alike w w')
    (hvalid : (cfg.within limit').validate = (cfg.within limit).validate)
    (hsooner : ∀ v v', alike v v' →
      (limit'.any fun limit => limit < Clock.since (Clock.now w') v') = true →
        (limit.any fun limit => limit < Clock.since (Clock.now w) v) = true) :
    Matching alike (SameOutcome (Abreast alike cfg limit limit'))
      (Search.start p (cfg.within limit) w) (Search.start p (cfg.within limit') w') := by
  obtain ⟨built, built', v, v', hgen, hgen', hsame, hworld⟩ :=
    (hp.generate id p.display cfg.targetLength hw).exists_eq
  have hgen₀ : p.generate (cfg.within limit).targetLength w = (built, v) := hgen
  have hgen₁ : p.generate (cfg.within limit').targetLength w' = (built', v') := hgen'
  unfold Search.start
  rw [hvalid]
  split
  · exact ⟨.error _, hw⟩
  · dsimp only
    rw [hgen₀, hgen₁]
    cases hsame with
    | error error => exact ⟨.error error, hworld⟩
    | @ok first first' hfirst =>
      have hchromosome : first'.chromosome = first.chromosome := hfirst
      refine ⟨.ok ?_, hworld⟩
      dsimp only
      rw [hchromosome]
      exact ⟨.opening id _ _ _ _, rfl, rfl, hsooner⟩

theorem Abreast.session (hp : Indistinct p alike) (hw : alike w w')
    (hvalid : (cfg.within limit').validate = (cfg.within limit).validate)
    (hsooner : ∀ v v', alike v v' →
      (limit'.any fun limit => limit < Clock.since (Clock.now w') v') = true →
        (limit.any fun limit => limit < Clock.since (Clock.now w) v) = true)
    (steps : Nat) {changes changes' : List (ω → ω)}
    (hchanges : List.Forall₂ (SameChange alike) changes changes') :
    SameOutcome
      (fun limited free => Truncates (cfg.within limit) limited.opened.best changes.length
        limited.strides free.answers limited.answers)
      (Search.session p (cfg.within limit) steps changes w)
      (Search.session p (cfg.within limit') steps changes' w') := by
  obtain ⟨started, started', v, v', hfirst, hsecond, hsame, hworld⟩ :=
    (Abreast.start hp hw hvalid hsooner).exists_eq
  unfold Search.session
  rw [hfirst, hsecond]
  cases hsame with
  | error error => exact .error error
  | ok habreast => exact .ok (habreast.legs hp hworld steps hchanges)

omit [Ord Fitness] [WordSource ω] [Clock ω] [Std.TransOrd Fitness] in
theorem validate_within (cfg : Config) {limit : Duration} (h : 0 < limit) :
    (cfg.within (some limit)).validate = (cfg.within none).validate := by
  have hlimit : (some limit : Option Duration) ≠ some 0 := by
    intro hzero
    rw [Option.some.inj hzero] at h
    exact Nat.lt_irrefl 0 h
  have hnone : (none : Option Duration) ≠ some 0 := by
    intro hzero
    cases hzero
  show (if cfg.poolSize = 0 then _ else if some limit = some 0 then _ else _)
    = if cfg.poolSize = 0 then _ else if (none : Option Duration) = some 0 then _ else _
  rw [if_neg hlimit, if_neg hnone]

/--
**A time limit truncates the answers and does nothing else.** A search with a time limit and one
without are started in worlds that may differ in what the clock reads, and in the time that passes,
but in nothing that the problem or its draws can see. Then both fail with the same error, or the
answers of the limited session are those of the other, as long as none of its deadline checks fails.
If one does, they are cut off before some pull, and end with a timeout that carries the last of the
new bests before it, or the first candidate.

So with a later time limit, and the same clock, no new best is lost.
-/
theorem session_truncates (cfg : Config) (steps : Nat) (hp : Indistinct p alike)
    (hw : alike w w') {changes changes' : List (ω → ω)}
    (hchanges : List.Forall₂ (SameChange alike) changes changes')
    {limit : Duration} (hpositive : 0 < limit) :
    SameOutcome
        (fun limited free => Truncates (cfg.within (some limit)) limited.opened.best changes.length
          limited.strides free.answers limited.answers)
        (session p (cfg.within (some limit)) steps changes w)
        (session p (cfg.within none) steps changes' w') ∧
      ∀ later, limit ≤ later →
        SameOutcome (fun sooner later => bests sooner.answers <+: bests later.answers)
          (session p (cfg.within (some limit)) steps changes w)
          (session p (cfg.within (some later)) steps changes w) := by
  constructor
  · exact Abreast.session hp hw (validate_within cfg hpositive).symm (fun _ _ _ h => by cases h)
      steps hchanges
  · intro later hlater
    have hvalid : (cfg.within (some later)).validate = (cfg.within (some limit)).validate :=
      (validate_within cfg (Nat.lt_of_lt_of_le hpositive hlater)).trans
        (validate_within cfg hpositive).symm
    have hsooner : ∀ v v' : ω, v = v' →
        ((some later).any fun limit => limit < Clock.since (Clock.now w) v') = true →
          ((some limit).any fun limit => limit < Clock.since (Clock.now w) v) = true := by
      rintro v _ rfl hlate
      exact decide_eq_true (Nat.lt_of_le_of_lt hlater (of_decide_eq_true hlate))
    have hsame : List.Forall₂ (SameChange Eq) changes changes :=
      List.forall₂_same.mpr fun change _ v v' h => congrArg change h
    have hsessions := Abreast.session (Indistinct.refl p) rfl hvalid hsooner steps hsame
    exact hsessions.imp fun _ _ h => h.bests_prefix

/-! ## Two clocks -/

/-- Worlds with scripts that differ in their times only. -/
def SameScript (w w' : World Random.Cycle Script) : Prop :=
  w.source = w'.source ∧ w.surroundings.candidates = w'.surroundings.candidates ∧
    w.surroundings.children = w'.surroundings.children

/-- No operator of a scripted problem reads the clock. -/
theorem indistinct_scripted (recombines : Bool) :
    Indistinct (scripted recombines) SameScript where
  next32 := by
    rintro w w' ⟨hsource, hscript⟩
    refine ⟨?_, ?_, hscript⟩
    · show (WordSource.next32 w.source).1 = (WordSource.next32 w'.source).1
      rw [hsource]
    · show (WordSource.next32 w.source).2 = (WordSource.next32 w'.source).2
      rw [hsource]
  next64 := by
    rintro w w' ⟨hsource, hscript⟩
    refine ⟨?_, ?_, hscript⟩
    · show (WordSource.next64 w.source).1 = (WordSource.next64 w'.source).1
      rw [hsource]
    · show (WordSource.next64 w.source).2 = (WordSource.next64 w'.source).2
      rw [hsource]
  create := by
    rintro w w' ⟨hsource, hcandidates, hchildren⟩
    exact ⟨congrArg List.head? hcandidates, hsource, congrArg List.tail hcandidates, hchildren⟩
  mutate := by
    rintro w w' genes ⟨hsource, hcandidates, hchildren⟩
    exact ⟨congrArg (List.headD · genes) hchildren, hsource, hcandidates,
      congrArg List.tail hchildren⟩
  crossover := by
    rintro w w' _ _ hscript
    exact ⟨rfl, hscript⟩

/-- The script with three candidates on a clock. -/
def threeCandidatesOn (now tick : Duration) : World Random.Cycle Script :=
  ⟨⟨[], []⟩, { now := now, tick := tick, candidates := [[3], [2], [7]] }⟩

/-- A limit that passes in the middle of a pull, beside a search on a faster clock without one. -/
theorem session_truncates_threeCandidates :
    ∃ limited free,
      session (scripted false) (({ poolSize := 3 } : Config).within (some 1)) 4 [id, id, id]
        (threeCandidatesOn 0 1) = .ok limited ∧
      session (scripted false) (({ poolSize := 3 } : Config).within none) 4 [id, wait 9, id]
        (threeCandidatesOn 100 50) = .ok free ∧
      limited.answers = [announcement ⟨[3], 3, .create, 0⟩,
        some (.ok (.timedOut ⟨[3], 3, .create, 0⟩)), none] ∧
      free.answers = [announcement ⟨[3], 3, .create, 0⟩, announcement ⟨[7], 7, .create, 0⟩] ∧
      Truncates (({ poolSize := 3 } : Config).within (some 1)) limited.opened.best 3
        limited.strides free.answers limited.answers := by
  have hlimited : session (scripted false) (({ poolSize := 3 } : Config).within (some 1)) 4
      [id, id, id] (threeCandidatesOn 0 1) = .ok _ := rfl
  have hfree : session (scripted false) (({ poolSize := 3 } : Config).within none) 4
      [id, wait 9, id] (threeCandidatesOn 100 50) = .ok _ := rfl
  have halike : SameScript (threeCandidatesOn 0 1) (threeCandidatesOn 100 50) := ⟨rfl, rfl, rfl⟩
  have hchanges : List.Forall₂ (SameChange SameScript) [id, id, id] [id, wait 9, id] :=
    .cons (fun _ _ h => h) (.cons (fun _ _ h => h) (.cons (fun _ _ h => h) .nil))
  have htruncates := session_truncates { poolSize := 3 } 4 (indistinct_scripted false) halike
    hchanges Nat.one_pos
  exact ⟨_, _, hlimited, hfree, rfl, rfl, htruncates.1.of_ok hlimited hfree⟩

end EvolutionarySearch.Search
