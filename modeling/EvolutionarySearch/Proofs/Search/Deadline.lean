import EvolutionarySearch.Search.Run
import EvolutionarySearch.Proofs.Search.Calls
import EvolutionarySearch.Proofs.Search.Ledger

/-!
# A time limit ends a search

Nothing in a search counts its visits: children may be dropped for ever. What ends it is the clock.
If every operator of the problem takes some time, then every search step does, since each calls an
operator; and no step is begun after the deadline. So the number of search steps is bounded by the
time limit, and with it the number of answers. Neither the fitness nor its order matters for this.

* `Paced.step`, `Timely.step` — what a step takes of the time, and what it adds to the answers
* `search_ends` — the number of search steps, and the end of every session and of every run
-/

namespace EvolutionarySearch.Search

variable {ω Gene Fitness : Type}

/-! ## Time that operators take -/

/-- Every operator of a problem takes at least a time `d`, and nothing sets the clock back. -/
structure Paced [WordSource ω] [Clock ω] (p : Problem ω Gene Fitness) (d : Duration) : Prop where
  next32 : ∀ w : ω, Clock.now w ≤ Clock.now (WordSource.next32 w).2
  next64 : ∀ w : ω, Clock.now w ≤ Clock.now (WordSource.next64 w).2
  create : ∀ w, Clock.now w + d ≤ Clock.now (p.create w).2
  mutate : ∀ genes w, Clock.now w + d ≤ Clock.now (p.mutate genes w).2
  /-- A problem that does not combine parents need not have an operator for it. -/
  crossover : p.recombines = true →
    ∀ parent donor w, Clock.now w + d ≤ Clock.now (p.crossover parent donor w).2
  display : ∀ c time w, Clock.now w ≤ Clock.now (p.display c time w)

/-- One more call takes `d` more. -/
theorem now_after_call [Clock ω] {start d : Duration} {n : Nat} {v v' : ω}
    (h : start + n * d ≤ Clock.now v) (hcall : Clock.now v + d ≤ Clock.now v') :
    start + (n + 1) * d ≤ Clock.now v' :=
  calc start + (n + 1) * d
    _ = start + n * d + d := by rw [Nat.succ_mul, Nat.add_assoc]
    _ ≤ Clock.now v + d := Nat.add_le_add_right h d
    _ ≤ Clock.now v' := hcall

theorem Paced.passage [WordSource ω] [Clock ω] {p : Problem ω Gene Fitness} {d : Duration}
    (hp : Paced p d) {w v : ω} {calls : List (Call Gene)} (h : Passage p w calls v) :
    Clock.now w + calls.length * d ≤ Clock.now v := by
  induction h with
  | stay => simp
  | word32 h ih => exact Nat.le_trans ih (hp.next32 _)
  | word64 h ih => exact Nat.le_trans ih (hp.next64 _)
  | create h ih => simpa using now_after_call ih (hp.create _)
  | mutate h parent ih => simpa using now_after_call ih (hp.mutate parent _)
  | crossover h hrecombines parent donor ih =>
    simpa using now_after_call ih (hp.crossover hrecombines parent donor _)

/-- A world in which time passes with the operators of a problem. -/
structure Timed (ω : Type) where
  world : ω
  now : Duration := 0

instance [WordSource ω] : WordSource (Timed ω) where
  next32 w := ((WordSource.next32 w.world).1, { w with world := (WordSource.next32 w.world).2 })
  next64 w := ((WordSource.next64 w.world).1, { w with world := (WordSource.next64 w.world).2 })

instance : Clock (Timed ω) where
  now := Timed.now

/-- The problem with operators that take a time `d` each. -/
def Problem.slowed (p : Problem ω Gene Fitness) (d : Duration) :
    Problem (Timed ω) Gene Fitness where
  geneSet := p.geneSet
  fitness := p.fitness
  optimal := p.optimal
  create w := ((p.create w.world).1, ⟨(p.create w.world).2, w.now + d⟩)
  mutate genes w := ((p.mutate genes w.world).1, ⟨(p.mutate genes w.world).2, w.now + d⟩)
  recombines := p.recombines
  crossover parent donor w :=
    ((p.crossover parent donor w.world).1, ⟨(p.crossover parent donor w.world).2, w.now + d⟩)
  display c time w := { w with world := p.display c time w.world }

theorem paced_slowed [WordSource ω] (p : Problem ω Gene Fitness) (d : Duration) :
    Paced (p.slowed d) d where
  next32 _ := Nat.le_refl _
  next64 _ := Nat.le_refl _
  create _ := Nat.le_refl _
  mutate _ _ := Nat.le_refl _
  crossover _ _ _ _ := Nat.le_refl _
  display _ _ _ := Nat.le_refl _

/-! ## Search steps -/

/-- A step that fills a slot or visits one: the search is running and has time. -/
def Stride.searches [Clock ω] (cfg : Config) (stride : Stride ω Gene Fitness) : Bool :=
  stride.before.phase = .running && !stride.before.expired cfg stride.world

/-- The search steps among others. -/
def searchesOf [Clock ω] (cfg : Config) (strides : List (Stride ω Gene Fitness)) : Nat :=
  strides.countP (·.searches cfg)

/-- The search steps of a session: its first candidate, and the slots it has filled or visited. -/
def Session.searches [Clock ω] (cfg : Config) (run : Session ω Gene Fitness) : Nat :=
  1 + searchesOf cfg run.strides

theorem searchesOf_append [Clock ω] (cfg : Config) (strides more : List (Stride ω Gene Fitness)) :
    searchesOf cfg (strides ++ more) = searchesOf cfg strides + searchesOf cfg more :=
  List.countP_append

/-! ## Answers -/

/-- An answer with which a search ends: a timeout or an error. -/
inductive Final : Answer Gene Fitness → Prop where
  | timedOut (best : Chromosome Gene Fitness) : Final (some (.ok (.timedOut best)))
  | refused (error : SearchError) : Final (some (.error error))

/-- A bounded number of new bests, then a final answer, then nothing. -/
inductive Concluded (bound : Nat) : List (Answer Gene Fitness) → Prop where
  | intro {found : List (Chromosome Gene Fitness)} (hfound : found.length ≤ bound)
    {last : Answer Gene Fitness} (hlast : Final last) (silent : Nat) :
    Concluded bound (found.map announcement ++ last :: List.replicate silent none)

theorem Concluded.mono {bound more : Nat} {answers : List (Answer Gene Fitness)}
    (h : Concluded bound answers) (hle : bound ≤ more) : Concluded more answers := by
  obtain ⟨hfound, hlast, silent⟩ := h
  exact ⟨Nat.le_trans hfound hle, hlast, silent⟩

theorem Concluded.exists_final {bound : Nat} {answers : List (Answer Gene Fitness)}
    (h : Concluded bound answers) : ∃ answer ∈ answers, Final answer := by
  obtain ⟨hfound, hlast, silent⟩ := h
  exact ⟨_, by simp, hlast⟩

/-- After the final answer there may be one more empty one. -/
theorem Concluded.append_none {bound : Nat} {answers : List (Answer Gene Fitness)}
    (h : Concluded bound answers) : Concluded bound (answers ++ [none]) := by
  obtain ⟨hfound, hlast, silent⟩ := h
  have hall := Concluded.intro hfound hlast (silent + 1)
  rw [List.replicate_succ'] at hall
  simpa using hall

/-- The answers of a search in a phase, with no more new bests than there were search steps. -/
inductive Answered (searches : Nat) : Phase → List (Answer Gene Fitness) → Prop where
  | opening : Answered searches .opening []
  | running {found : List (Chromosome Gene Fitness)} (hfound : found.length ≤ searches) :
    Answered searches .running (found.map announcement)
  | ended {answers : List (Answer Gene Fitness)} (hanswers : Concluded searches answers) :
    Answered searches .ended answers

/-- A search has given its final answer or no more answers than it has made search steps. -/
theorem Answered.length_le_or {searches : Nat} {phase : Phase}
    {answers : List (Answer Gene Fitness)} (h : Answered searches phase answers) :
    answers.length ≤ searches ∨ Concluded searches answers := by
  cases h with
  | opening => exact .inl (Nat.zero_le searches)
  | running hfound => exact .inl (by simpa using hfound)
  | ended hanswers => exact .inr hanswers

/-- An answer that is no new best is final. -/
theorem final_of_ne_better {answer : Except SearchError (Improvement Gene Fitness)}
    (h : ∀ c, answer ≠ .ok (.better c)) : Final (some answer) := by
  rcases answer with error | (c | c)
  · exact .refused error
  · exact absurd rfl (h c)
  · exact .timedOut c

/-- New bests are announced one by one: the first one, and then one for a search step. -/
theorem Entry.answered {k more : Nat} {r r' : Records Gene Fitness}
    {progress : Progress Gene Fitness} {answers : List (Answer Gene Fitness)}
    (hentry : Entry r r' progress) (h : Answered k r.phase answers) (hk : 1 ≤ k)
    (hmore : r.phase = .running → r'.phase = .running → more = 1)
    (hended : r.phase = .ended → r'.phase = .ended ∧ progress = .ended) :
    Answered (k + more) r'.phase (answers ++ progress.answers) := by
  generalize hphase : r.phase = phase at h
  cases h with
  | opening =>
    cases hentry with
    | closed hanswer =>
      have hlast : Concluded (k + more) (List.map announcement [] ++ _ :: _) :=
        .intro (Nat.zero_le _) (final_of_ne_better hanswer) 0
      exact .ended hlast
    | announced _ =>
      have hfirst : Answered (k + more) .running ([r.best].map announcement) :=
        .running (Nat.le_trans hk (Nat.le_add_right k more))
      exact hfirst
    | silent hother | pending hother | surpassed hother c => rw [hother] at hphase; cases hphase
  | @running found hfound =>
    cases hentry with
    | closed hanswer => exact .ended (.intro (by omega) (final_of_ne_better hanswer) 0)
    | pending _ =>
      rw [hphase, Progress.answers, List.append_nil]
      exact .running (by omega)
    | surpassed _ c =>
      have hone : more = 1 := hmore hphase hphase
      have hfirst : Answered (k + more) .running ((found ++ [c]).map announcement) :=
        .running (by simp; omega)
      rw [List.map_append] at hfirst
      rw [Records.crowned, hphase]
      exact hfirst
    | silent hother | announced hother => rw [hother] at hphase; cases hphase
  | ended hanswers =>
    obtain ⟨hafter, rfl⟩ := hended hphase
    rw [hafter]
    exact .ended (hanswers.append_none.mono (Nat.le_add_right k more))

section Steps

variable [Ord Fitness] [WordSource ω] [Clock ω] {p : Problem ω Gene Fitness} {cfg : Config}
  {s : Search Gene Fitness} {w : ω} {k : Nat} {answers : List (Answer Gene Fitness)}

omit [Ord Fitness] [WordSource ω] in
theorem Stride.searches_iff {stride : Stride ω Gene Fitness} :
    stride.searches cfg = true ↔
      stride.before.phase = .running ∧ stride.before.expired cfg stride.world = false := by
  unfold Stride.searches
  rw [Bool.and_eq_true, decide_eq_true_iff, Bool.not_eq_true']

/-- A running search searches, or runs out of time. -/
theorem searches_of_running (hphase : s.phase = .running)
    (hopen : (step p cfg s w).search.phase ≠ .ended) :
    (stride p cfg s w).searches cfg = true := by
  cases hlate : s.expired cfg w with
  | true => simp [step, hphase, hlate, timeOut] at hopen
  | false => exact Stride.searches_iff.mpr ⟨hphase, hlate⟩

theorem searchesOf_stride (h : (stride p cfg s w).searches cfg = true) :
    searchesOf cfg [stride p cfg s w] = 1 := by
  simp [searchesOf, h]

theorem Turn.searches_of_pending {taken : Step ω Gene Fitness} (h : Turn p cfg s w taken)
    (hpending : taken.progress = .pending) :
    s.phase = .running ∧ s.expired cfg w = false := by
  cases h with
  | unfilled hphase htime hroom hgen => exact ⟨hphase, htime⟩
  | filled hphase htime hroom hgen hbest => exact ⟨hphase, htime⟩
  | filledBest hphase htime hroom hgen hbest => exact ⟨hphase, htime⟩
  | barren hphase htime hfull hbred => exact ⟨hphase, htime⟩
  | visit hphase htime hfull hbred hverdict => exact ⟨hphase, htime⟩
  | silent | timedOut | announced => cases hpending

theorem Answered.step (p : Problem ω Gene Fitness) (cfg : Config) (w : ω)
    (h : Answered k s.phase answers) (hk : 1 ≤ k) :
    Answered (k + searchesOf cfg [stride p cfg s w]) (step p cfg s w).search.phase
      (answers ++ (step p cfg s w).progress.answers) := by
  refine (step_turn p cfg s w).entry.answered h hk ?_ ?_
  · intro hphase hnext
    have hrunning : (Search.step p cfg s w).search.phase = .running := hnext
    exact searchesOf_stride (searches_of_running hphase (by simp [hrunning]))
  · intro hphase
    have hended : s.phase = .ended := hphase
    simp [Search.step, hended, records]

/-! ## Time -/

/--
A search after a number of search steps, within a time limit: each has taken a time `d`, and none
was begun after the limit.
-/
structure Timely (p : Problem ω Gene Fitness) (d limit searches : Nat)
    (answers : List (Answer Gene Fitness)) (s : Search Gene Fitness) (w : ω) : Prop where
  recombines : s.repertoire.recombines = p.recombines
  first : 1 ≤ searches
  clock : s.started + searches * d ≤ Clock.now w
  bound : searches ≤ limit / d + 1
  answered : Answered searches s.phase answers

variable {d limit : Nat}

omit [Ord Fitness] [WordSource ω] in
/-- The time between two pulls can only be lost. -/
theorem Timely.later (h : Timely p d limit k answers s w) {v : ω}
    (hv : Clock.now w ≤ Clock.now v) : Timely p d limit k answers s v where
  recombines := h.recombines
  first := h.first
  clock := Nat.le_trans h.clock hv
  bound := h.bound
  answered := h.answered

section Paces

variable (hp : Paced p d) (hd : 0 < d) (hlimit : cfg.timeLimit = some limit)

omit [Ord Fitness] [WordSource ω] in
include hd hlimit in
/-- A search step is begun within the limit, which the steps before it have left. -/
theorem Timely.le_of_searches (h : Timely p d limit k answers s w)
    (hsearches : s.expired cfg w = false) : k ≤ limit / d := by
  have helapsed : s.elapsed w ≤ limit := by
    simpa [expired, hlimit] using hsearches
  have hspent : k * d ≤ s.elapsed w := Nat.le_sub_of_add_le' h.clock
  exact (Nat.le_div_iff_mul_le hd).mpr (Nat.le_trans hspent helapsed)

include hp in
/-- A search step takes at least `d`, and no other sets the clock back. -/
theorem Paced.step (hs : s.repertoire.recombines = p.recombines) :
    Clock.now w + searchesOf cfg [stride p cfg s w] * d ≤ Clock.now (step p cfg s w).world := by
  obtain ⟨calls, hpassage, hsome, -⟩ := (step_turn p cfg s w).passage hs
  have hcalls : searchesOf cfg [stride p cfg s w] ≤ calls.length := by
    cases hsearches : (stride p cfg s w).searches cfg with
    | true =>
      obtain ⟨hphase, htime⟩ := Stride.searches_iff.mp hsearches
      rw [searchesOf_stride hsearches]
      exact List.length_pos_iff.mpr (hsome hphase htime)
    | false => simp [searchesOf, hsearches]
  exact Nat.le_trans (Nat.add_le_add_left (Nat.mul_le_mul_right d hcalls) _) (hp.passage hpassage)

include hp hd hlimit in
theorem Timely.step (h : Timely p d limit k answers s w) :
    Timely p d limit (k + searchesOf cfg [stride p cfg s w])
      (answers ++ (step p cfg s w).progress.answers) (step p cfg s w).search
      (step p cfg s w).world where
  recombines := (step_turn p cfg s w).entry.recombines.trans h.recombines
  first := Nat.le_add_right_of_le h.first
  clock := by
    rw [step_started, Nat.add_mul, ← Nat.add_assoc]
    exact Nat.le_trans (Nat.add_le_add_right h.clock _) (hp.step h.recombines)
  bound := by
    cases hsearches : (stride p cfg s w).searches cfg with
    | true =>
      rw [searchesOf_stride hsearches]
      exact Nat.succ_le_succ (h.le_of_searches hd hlimit (Stride.searches_iff.mp hsearches).2)
    | false => simpa [searchesOf, hsearches] using h.bound
  answered := h.answered.step p cfg w h.first

include hp hd hlimit in
/-- A step in a row of steps, of which all are counted. -/
theorem Timely.stride {past : List (Stride ω Gene Fitness)}
    (h : Timely p d limit (k + searchesOf cfg past) (answers ++ answersBy past) s w) :
    Timely p d limit (k + searchesOf cfg (past ++ [stride p cfg s w]))
      (answers ++ answersBy (past ++ [Search.stride p cfg s w])) (Search.step p cfg s w).search
      (Search.step p cfg s w).world := by
  rw [searchesOf_append, answersBy_append, answersBy_singleton, ← Nat.add_assoc,
    ← List.append_assoc]
  exact h.step hp hd hlimit

include hp hd hlimit in
theorem Timely.next {steps : Nat} {pull : Pull ω Gene Fitness}
    (h : Timely p d limit k answers s w) (hnext : next p cfg steps s w = some pull) :
    Timely p d limit (k + searchesOf cfg (strides p cfg steps s w)) (answers ++ [pull.answer])
      pull.search pull.world := by
  have hall := next_induction
    (I := fun past s v =>
      Timely p d limit (k + searchesOf cfg past) (answers ++ answersBy past) s v)
    (fun _ _ _ hpast => hpast.stride hp hd hlimit) []
    (by simpa [searchesOf, answersBy] using h) hnext
  rwa [List.nil_append, answers_strides hnext] at hall

include hp hd hlimit in
/-- A pull takes no more steps than there is time for. -/
theorem Timely.exists_next {steps : Nat} (h : Timely p d limit k answers s w)
    (hsteps : limit / d + 2 ≤ steps + k) : ∃ pull, Search.next p cfg steps s w = some pull := by
  induction steps generalizing k answers s w with
  | zero =>
    have hbound := h.bound
    omega
  | succ steps ih =>
    simp only [Search.next]
    cases hprogress : (Search.step p cfg s w).progress with
    | pending =>
      have hstep := h.step hp hd hlimit
      rw [searchesOf_stride
        (Stride.searches_iff.mpr ((step_turn p cfg s w).searches_of_pending hprogress))] at hstep
      exact ih hstep (by omega)
    | answered answer => exact ⟨_, rfl⟩
    | ended => exact ⟨_, rfl⟩

include hp hd hlimit in
/-- Every pull of a session has a result. -/
theorem Timely.length_legs {steps : Nat} {changes : List (ω → ω)}
    (h : Timely p d limit k answers s w) (hsteps : limit / d + 1 ≤ steps)
    (hchanges : ∀ change ∈ changes, ∀ v, Clock.now v ≤ Clock.now (change v)) :
    (legs p cfg steps changes s w).length = changes.length := by
  induction changes generalizing k answers s w with
  | nil => rfl
  | cons change changes ih =>
    have hchanged := h.later (hchanges change List.mem_cons_self w)
    have hfirst := h.first
    have hfits : limit / d + 2 ≤ steps + k := by omega
    obtain ⟨pull, hnext⟩ := hchanged.exists_next hp hd hlimit hfits
    simp only [legs, hnext, List.length_cons]
    rw [ih (hchanged.next hp hd hlimit hnext) fun other hother =>
      hchanges other (List.mem_cons_of_mem _ hother)]

include hp hd hlimit in
/-- A run has a result if it may pull once more than there can be new bests. -/
theorem Timely.isSome_pursue {steps pulls : Nat} {reached : Array Fitness}
    (h : Timely p d limit k answers s w) (hopen : ∀ answer ∈ answers, ¬Final answer)
    (hsteps : limit / d + 1 ≤ steps) (hpulls : limit / d + 2 ≤ answers.length + pulls) :
    (pursue p cfg steps pulls s reached w).isSome = true := by
  induction pulls generalizing k answers s reached w with
  | zero =>
    have hbound := h.bound
    rcases h.answered.length_le_or with hlength | hended
    · omega
    · obtain ⟨answer, hmem, hfinal⟩ := hended.exists_final
      exact absurd hfinal (hopen answer hmem)
  | succ pulls ih =>
    have hfirst := h.first
    have hfits : limit / d + 2 ≤ steps + k := by omega
    obtain ⟨⟨answer, s', w'⟩, hnext⟩ := h.exists_next hp hd hlimit hfits
    unfold pursue
    rw [hnext]
    rcases answer with _ | error | c | best
    · rfl
    · rfl
    · dsimp only
      split
      · have hnew : ¬Final (announcement c) := by rintro ⟨⟩
        refine ih ((h.next hp hd hlimit hnext).later (hp.display ..)) ?_ (by simp; omega)
        simpa [or_imp, forall_and] using ⟨hopen, hnew⟩
      · rfl
    · rfl

end Paces

/-! ## Sessions and runs -/

omit [Ord Fitness] in
theorem Timely.opened (hp : Paced p d) {v : ω} (h : start p cfg w = (.ok s, v)) :
    Timely p d limit 1 [] s v := by
  obtain ⟨-, first, hgen, rfl⟩ := start_eq_ok h
  have hclock := hp.passage ((Passage.stay (w := w)).generate cfg.targetLength)
  rw [hgen] at hclock
  exact ⟨rfl, Nat.le_refl 1, hclock, Nat.le_add_left 1 _, .opening⟩

/-- What is to be said of a session that has time for a number of search steps after the first. -/
structure EndsInTime (cfg : Config) (fits steps pulls : Nat) (run : Session ω Gene Fitness) :
    Prop where
  bounded : run.searches cfg ≤ fits + 1
  /-- No pull goes on for ever. -/
  answered : fits + 1 ≤ steps → run.legs.length = pulls
  /-- The answers are new bests, then a timeout or an error, then nothing. -/
  ends : fits + 1 ≤ steps → fits + 2 ≤ pulls → Concluded (fits + 1) run.answers

theorem session_endsInTime {steps : Nat} {changes : List (ω → ω)} {run : Session ω Gene Fitness}
    (hp : Paced p d) (hd : 0 < d) (hlimit : cfg.timeLimit = some limit)
    (hchanges : ∀ change ∈ changes, ∀ v, Clock.now v ≤ Clock.now (change v))
    (h : session p cfg steps changes w = .ok run) :
    EndsInTime cfg (limit / d) steps changes.length run := by
  obtain ⟨v, hall⟩ := session_world_induction
    (I := fun past s v =>
      Timely p d limit (1 + searchesOf cfg past) ([] ++ answersBy past) s v)
    (fun _ _ _ hpast => hpast.stride hp hd hlimit) h
    (fun change hchange _ _ v hpast => hpast.later (hchanges change hchange v))
    fun _ => Timely.opened hp
  have hlength : limit / d + 1 ≤ steps → run.legs.length = changes.length := by
    intro hsteps
    obtain ⟨w', hstart, hlegs⟩ := session_eq_ok h
    rw [hlegs]
    exact (Timely.opened hp hstart).length_legs hp hd hlimit hsteps hchanges
  refine ⟨hall.bound, hlength, ?_⟩
  intro hsteps hpulls
  have hcount : run.answers.length = changes.length := by
    rw [Session.answers, List.length_map, hlength hsteps]
  have hbound := hall.bound
  have hanswered := hall.answered
  rw [List.nil_append, ← answers_eq h] at hanswered
  rcases hanswered.length_le_or with hfew | hended
  · omega
  · exact hended.mono hbound

/--
**A time limit ends every search whose operators take time.** If each of them takes at least `d` and
nothing sets the clock back, there are at most `limit / d + 1` search steps however often the search
is pulled, every pull has a result, and after as many new bests at most comes a timeout or an error.
So every run comes to its end as well.
-/
theorem search_ends {d limit : Duration} (hp : Paced p d) (hd : 0 < d)
    (hlimit : cfg.timeLimit = some limit) :
    (∀ steps changes w run,
      (∀ change ∈ changes, ∀ v : ω, Clock.now v ≤ Clock.now (change v)) →
      session p cfg steps changes w = .ok run →
      EndsInTime cfg (limit / d) steps changes.length run) ∧
    ∀ steps w, limit / d + 2 ≤ steps → (run p cfg steps w).isSome = true := by
  refine ⟨fun _ _ _ _ hchanges h => session_endsInTime hp hd hlimit hchanges h, ?_⟩
  intro steps w hsteps
  unfold run
  split
  · rfl
  · next s v hstart =>
    exact (Timely.opened hp hstart).isSome_pursue hp hd hlimit (by simp)
      (Nat.le_of_succ_le hsteps) (by simpa using hsteps)

/-- A script with two candidates, after which all children are like their parents. -/
def endlessTies : Timed (World Random.Cycle Script) :=
  ⟨⟨⟨[], []⟩, { candidates := [[3], [2]] }⟩, 0⟩

/-- Three search steps of two units each in five units of time, and then the timeout. -/
theorem search_ends_endlessTies :
    ∃ run, session ((scripted false).slowed 2) { poolSize := 2, timeLimit := some 5 } 3
        [id, id, id, id] endlessTies = .ok run ∧
      run.answers = [announcement ⟨[3], 3, .create, 0⟩,
        some (.ok (.timedOut ⟨[3], 3, .create, 0⟩)), none, none] ∧
      run.searches { poolSize := 2, timeLimit := some 5 } = 3 ∧
      EndsInTime { poolSize := 2, timeLimit := some 5 } (5 / 2) 3 4 run ∧
      (Search.run ((scripted false).slowed 2) { poolSize := 2, timeLimit := some 5 } 4
        endlessTies).isSome = true :=
  have h : session ((scripted false).slowed 2) { poolSize := 2, timeLimit := some 5 } 3
      [id, id, id, id] endlessTies = .ok _ := rfl
  have hlimit : Config.timeLimit { poolSize := 2, timeLimit := some 5 } = some 5 := rfl
  have hends := search_ends (paced_slowed (scripted false) 2) (by decide) hlimit
  ⟨_, h, rfl, rfl, hends.1 3 [id, id, id, id] endlessTies _ (by simp) h,
    hends.2 4 endlessTies (by decide)⟩

end Steps

end EvolutionarySearch.Search
