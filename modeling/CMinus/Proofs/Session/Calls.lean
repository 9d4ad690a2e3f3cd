import CMinus.Proofs.Typing.StaleMarks

/-!
# Calls on a session

A session is asked for its passes in any order, any number of times and with any
trees.  `Session.calls` is such a run: what each call was asked to do, the
session it found and what came of it.  A call that fails leaves session and tree
to the caller as they were.

One step of a run depends on the phase of the session and on nothing else.  A
call out of turn is refused (`refused_of_phase`); in a fresh session a build is
accepted (`built_start`), and in a session whose symbols are built a check is, if
the tree bears no scopes but those of the table (`checked_of_known`).  An accepted
pass brings the session into the next phase, so a run is a prefix of refused
checks, one build, refused builds, one check, and refused calls from then on.

The frame of a pass is what it leaves alone.  `Forest.unscoped` is all of a tree
but its scopes and `Forest.untyped` all but its types, so "only scopes change" is
an equation of two trees.

## Main results

* `Session.calls_inTurn`: in every run exactly the first build and the first
  check after it are accepted, they write nothing but their own marks, and every
  other call changes nothing.
-/

namespace CMinus

namespace Forest

/-- The forest without its scopes. -/
def unscoped : Forest → Forest
  | nil => nil
  | node l a b c rest =>
    node { l with marks := { l.marks with scope := none } }
      a.unscoped b.unscoped c.unscoped rest.unscoped

theorem bare_unscoped (f : Forest) : f.unscoped.bare = f.bare := by
  induction f with
  | nil => rfl
  | node l a b c rest iha ihb ihc ihr =>
      simp only [unscoped, bare, iha, ihb, ihc, ihr]
      rfl

theorem bare_untyped (f : Forest) : f.untyped.bare = f.bare := by
  induction f with
  | nil => rfl
  | node l a b c rest iha ihb ihc ihr =>
      simp only [untyped, bare, iha, ihb, ihc, ihr]
      rfl

/-- The scopes that the forest is marked with. -/
def scopes (f : Forest) : List ScopeId := f.preorder.filterMap (·.marks.scope)

theorem KnownTo.of_scopes_subset {f g : Forest} {t : Table} (hg : g.KnownTo t)
    (h : f.scopes ⊆ g.scopes) : f.KnownTo t := by
  intro l hl id hid
  have hmem : id ∈ g.scopes := h (List.mem_filterMap.mpr ⟨l, hl, hid⟩)
  obtain ⟨l', hl', hid'⟩ := List.mem_filterMap.mp hmem
  exact hg l' hl' id hid'

end Forest

/-! ## What the passes leave alone -/

/-- The first pass writes scopes and nothing else. -/
theorem Scoping.unscoped_marked (s : Scoping) (f : Forest) :
    (s.marked f).unscoped = f.unscoped := by
  have hty : ∀ (l : Label) (s : Scoping), (enter l s).1.ty = l.marks.ty := by
    intro l s
    unfold enter
    split <;> rfl
  induction f generalizing s with
  | nil => rfl
  | node l a b c rest iha ihb ihc ihr =>
      simp only [marked_node, Forest.unscoped, iha, ihb, ihc, ihr, hty]

/-- The second pass writes types and nothing else. -/
theorem Typing.untyped_typed (poisonFailed : Bool) (table : Table) (f : Forest) :
    (typed poisonFailed table f).untyped = f.untyped := by
  induction f with
  | nil => rfl
  | node l a b c rest iha ihb ihc ihr =>
      simp only [typed, Forest.untyped, iha, ihb, ihc, ihr]
      rfl

/-! ## Runs of calls -/

/-- The two passes of an analysis. -/
inductive Pass where
  | build
  | check
  deriving DecidableEq

/-- The phase in which a pass is in turn. -/
def Pass.turn : Pass → Phase
  | build => .unbuilt
  | check => .symbolsBuilt

/-- A pass that a session is asked for, and the tree to run it on; an empty tree
is no tree. -/
structure Call where
  pass : Pass
  root : Forest
  deriving DecidableEq

/-- A call that was made: the session it found, and its result. -/
structure Called where
  call : Call
  before : Session
  result : Except Failure (Forest × Session)

namespace Called

/-- The session afterwards. -/
def after (c : Called) : Session :=
  match c.result with
  | .ok (_, s) => s
  | .error _ => c.before

/-- The tree afterwards. -/
def root (c : Called) : Forest :=
  match c.result with
  | .ok (f, _) => f
  | .error _ => c.call.root

/-- The pass was refused as out of order, and nothing has changed. -/
structure Refused (c : Called) : Prop where
  result : ∃ refusal : Refusal, c.result = .error (.ofRefusal refusal)
  session : c.after = c.before
  root : c.root = c.call.root

/-- What every accepted pass does: it goes to its end, and it only appends to the
log. -/
structure Accepted (c : Called) : Prop where
  result : c.result = .ok (c.root, c.after)
  config : c.after.config = c.before.config
  log : c.before.log.entries.toList <+: c.after.log.entries.toList

/-- A build was accepted: only the scopes of the tree have changed, and no scope
is left open. -/
structure Built (c : Called) : Prop extends c.Accepted where
  tree : c.root.unscoped = c.call.root.unscoped
  phase : c.after.phase = .symbolsBuilt
  stack : c.after.table.stack = []

/-- A check was accepted: only the types of the tree have changed. -/
structure Checked (c : Called) : Prop extends c.Accepted where
  tree : c.root.untyped = c.call.root.untyped
  phase : c.after.phase = .typesChecked
  table : c.after.table = c.before.table

/-- The pass that was asked for was accepted. -/
def Done (c : Called) : Prop :=
  match c.call.pass with
  | .build => c.Built
  | .check => c.Checked

theorem Done.accepted {c : Called} (h : c.Done) : c.Accepted := by
  unfold Done at h
  cases hpass : c.call.pass with
  | build =>
      rw [hpass] at h
      exact h.toAccepted
  | check =>
      rw [hpass] at h
      exact h.toAccepted

theorem Refused.not_done {c : Called} (h : c.Refused) : ¬c.Done := by
  intro hdone
  obtain ⟨refusal, hresult⟩ := h.result
  rw [hdone.accepted.result] at hresult
  cases hresult

/-- No accepted pass touches what the parser wrote. -/
theorem Done.bare {c : Called} (h : c.Done) : c.root.bare = c.call.root.bare := by
  unfold Done at h
  cases hpass : c.call.pass with
  | build =>
      rw [hpass] at h
      rw [← Forest.bare_unscoped, h.tree, Forest.bare_unscoped]
  | check =>
      rw [hpass] at h
      rw [← Forest.bare_untyped, h.tree, Forest.bare_untyped]

end Called

/-- The first place in a list where a pass is asked for. -/
def Pass.First (p : Pass) (passes : List Pass) (i : Nat) : Prop :=
  passes[i]? = some p ∧ ∀ k < i, passes[k]? ≠ some p

/-- The first check after the first build. -/
def Pass.FirstCheck (passes : List Pass) (i : Nat) : Prop :=
  ∃ j n, First build passes j ∧ First check (passes.drop (j + 1)) n ∧ i = j + 1 + n

/-- The calls that are in turn: the first build, and the first check after it. -/
def Pass.InTurn (passes : List Pass) (i : Nat) : Prop :=
  First build passes i ∨ FirstCheck passes i

namespace Pass

variable {p q : Pass} {passes : List Pass} {i : Nat}

theorem first_cons_self : First p (p :: passes) i ↔ i = 0 := by
  constructor
  · rintro ⟨_, hbefore⟩
    by_contra hi
    exact hbefore 0 (by omega) rfl
  · rintro rfl
    exact ⟨rfl, by simp⟩

theorem first_cons_of_ne (h : q ≠ p) :
    First p (q :: passes) i ↔ ∃ k, i = k + 1 ∧ First p passes k := by
  cases i with
  | zero => simp [First, h]
  | succ i =>
      simp only [First, List.getElem?_cons_succ, Nat.add_right_cancel_iff, exists_eq_left']
      refine and_congr_right fun _ => ⟨fun hbefore k hk => ?_, fun hbefore k hk => ?_⟩
      · exact hbefore (k + 1) (by omega)
      · cases k with
        | zero => simpa using h
        | succ k => exact hbefore k (by omega)

theorem firstCheck_cons_build :
    FirstCheck (build :: passes) i ↔ ∃ k, i = k + 1 ∧ First check passes k := by
  constructor
  · rintro ⟨j, n, hj, hn, rfl⟩
    obtain rfl := first_cons_self.mp hj
    exact ⟨n, by omega, hn⟩
  · rintro ⟨k, rfl, hk⟩
    exact ⟨0, k, first_cons_self.mpr rfl, hk, by omega⟩

theorem firstCheck_cons_check :
    FirstCheck (check :: passes) i ↔ ∃ k, i = k + 1 ∧ FirstCheck passes k := by
  constructor
  · rintro ⟨j, n, hj, hn, rfl⟩
    obtain ⟨k, rfl, hk⟩ := (first_cons_of_ne (by decide)).mp hj
    exact ⟨k + 1 + n, by omega, k, n, hk, hn, rfl⟩
  · rintro ⟨k, rfl, j, n, hj, hn, rfl⟩
    exact ⟨j + 1, n, (first_cons_of_ne (by decide)).mpr ⟨j, rfl, hj⟩, hn, by omega⟩

end Pass

namespace Session

/-- Ask for a pass. -/
def call (s : Session) (c : Call) : Called :=
  { call := c
    before := s
    result := match c.pass with
      | .build => s.build c.root
      | .check => s.check c.root }

/-- Ask for passes one after another, each in the session that the one before has
left. -/
def calls (s : Session) : List Call → List Called
  | [] => []
  | c :: cs => s.call c :: (s.call c).after.calls cs

@[simp] theorem map_call_calls (s : Session) (cs : List Call) :
    (s.calls cs).map (·.call) = cs := by
  induction cs generalizing s with
  | nil => rfl
  | cons c cs ih => simp [calls, call, ih]

/-! ## One call -/

variable {s : Session} {c : Call}

/-- Out of turn, a pass is refused whatever the tree. -/
theorem refused_of_phase (h : s.phase ≠ c.pass.turn) :
    (s.call c).Refused := by
  have hrefused : ∃ refusal : Refusal, (s.call c).result = .error (.ofRefusal refusal) := by
    cases hpass : c.pass with
    | build =>
        rw [hpass] at h
        cases hphase : s.phase with
        | unbuilt => exact absurd hphase h
        | symbolsBuilt | typesChecked =>
            exact ⟨.alreadyBuilt, by simp only [call, hpass, build, hphase]⟩
    | check =>
        rw [hpass] at h
        cases hphase : s.phase with
        | unbuilt => exact ⟨.notYetBuilt, by simp only [call, hpass, check, hphase]⟩
        | symbolsBuilt => exact absurd hphase h
        | typesChecked => exact ⟨.alreadyChecked, by simp only [call, hpass, check, hphase]⟩
  obtain ⟨refusal, hresult⟩ := hrefused
  exact
    { result := ⟨refusal, hresult⟩
      session := by rw [Called.after, hresult]
      root := by rw [Called.root, hresult] }

/-- A fresh session accepts a build of any tree. -/
theorem built_start (config : Config) (hpass : c.pass = .build) :
    ((start config).call c).Built ∧
      ((start config).call c).root.KnownTo ((start config).call c).after.table := by
  have hresult : ((start config).call c).result = (start config).build c.root := by
    simp only [call, hpass]
  rw [Scoping.build_start] at hresult
  have hroot : ((start config).call c).root = Scoping.start.marked c.root := by
    rw [Called.root, hresult]
  have hafter : ((start config).call c).after =
      { config, table := Scoping.finalTable c.root, log := (Scoping.start.after c.root).log
        phase := .symbolsBuilt } := by
    rw [Called.after, hresult]
  constructor
  · exact
      { result := by rw [hresult, hroot, hafter]
        config := by rw [hafter]; rfl
        log := List.nil_prefix
        tree := by rw [hroot]; exact Scoping.unscoped_marked _ _
        phase := by rw [hafter]
        stack := by rw [hafter]; rfl }
  · rw [hroot, hafter]
    exact Scoping.knownTo_marked c.root

/-- A session whose symbols are built accepts a check of a tree that it knows. -/
theorem checked_of_known (hphase : s.phase = .symbolsBuilt) (hpass : c.pass = .check)
    (hknown : c.root.KnownTo s.table) : (s.call c).Checked := by
  have hresult : (s.call c).result = s.check c.root := by
    simp only [call, hpass]
  rw [check_eq hphase hknown] at hresult
  have hroot : (s.call c).root = Typing.typed s.config.poisonFailed s.table c.root := by
    rw [Called.root, hresult]
  have hafter : (s.call c).after =
      { s with
        log := (Typing.run s.config.poisonFailed s.table s.log c.root).2
        phase := .typesChecked } := by
    rw [Called.after, hresult]
  exact
    { result := by rw [hresult, hroot, hafter]
      config := by rw [hafter]; rfl
      log := by
        rw [hafter, Typing.run_snd]
        exact List.prefix_append _ _
      tree := by rw [hroot]; exact Typing.untyped_typed _ _ _
      phase := by rw [hafter]
      table := by rw [hafter]; rfl }

/-! ## A run -/

/-- After the check nothing is accepted. -/
theorem refused_of_mem_calls {cs : List Call} (hphase : s.phase = .typesChecked) {called : Called}
    (h : called ∈ s.calls cs) : called.Refused := by
  induction cs generalizing s with
  | nil => simp [calls] at h
  | cons c cs ih =>
      have hrefused : (s.call c).Refused := by
        apply refused_of_phase
        rw [hphase]
        cases c.pass <;> simp [Pass.turn]
      rcases List.mem_cons.mp h with rfl | h
      · exact hrefused
      · exact ih (hrefused.session ▸ hphase) h

/-- Between the build and the check, the first check is accepted. -/
theorem calls_built {cs : List Call} (hphase : s.phase = .symbolsBuilt)
    (hknown : ∀ c ∈ cs, c.pass = .check → c.root.KnownTo s.table) {i : Nat} {called : Called}
    (h : (s.calls cs)[i]? = some called) :
    (Pass.First .check (cs.map (·.pass)) i → called.Done) ∧
      (¬Pass.First .check (cs.map (·.pass)) i → called.Refused) := by
  induction cs generalizing s i with
  | nil => simp [calls] at h
  | cons c cs ih =>
      rw [calls] at h
      cases hpass : c.pass with
      | build =>
          have hrefused : (s.call c).Refused :=
            refused_of_phase (by simp [hpass, hphase, Pass.turn])
          rw [List.map_cons, hpass, Pass.first_cons_of_ne (by decide)]
          cases i with
          | zero =>
              obtain rfl := Option.some.inj h
              simpa using hrefused
          | succ i =>
              rw [List.getElem?_cons_succ, hrefused.session] at h
              simpa using ih hphase (fun c hc => hknown c (List.mem_cons_of_mem _ hc)) h
      | check =>
          have hchecked := checked_of_known hphase hpass (hknown c List.mem_cons_self hpass)
          rw [List.map_cons, hpass, Pass.first_cons_self]
          cases i with
          | zero =>
              obtain rfl := Option.some.inj h
              refine ⟨fun _ => ?_, fun hne => absurd rfl hne⟩
              simpa [Called.Done, call, hpass] using hchecked
          | succ i =>
              rw [List.getElem?_cons_succ] at h
              have hrefused := refused_of_mem_calls hchecked.phase (List.mem_of_getElem? h)
              exact ⟨fun hzero => absurd hzero (by omega), fun _ => hrefused⟩

/-- The trees to check come from the run itself: a check bears no scopes but
those of the trees that were built before it.  No tree at all bears none. -/
def OwnTrees (run : List Called) : Prop :=
  run.Pairwise fun earlier later =>
    earlier.call.pass = .build → earlier.result.isOk = true →
      later.call.pass = .check → later.call.root.scopes ⊆ earlier.root.scopes

/-- In a fresh session, the first build is accepted and then the first check. -/
theorem calls_start (config : Config) {cs : List Call}
    (hown : OwnTrees ((start config).calls cs)) {i : Nat} {called : Called}
    (h : ((start config).calls cs)[i]? = some called) :
    (Pass.InTurn (cs.map (·.pass)) i → called.Done) ∧
      (¬Pass.InTurn (cs.map (·.pass)) i → called.Refused) := by
  induction cs generalizing i with
  | nil => simp [calls] at h
  | cons c cs ih =>
      rw [calls] at h hown
      obtain ⟨hlater, hrest⟩ := List.pairwise_cons.mp hown
      cases hpass : c.pass with
      | build =>
          obtain ⟨hbuilt, hknown⟩ := built_start config hpass
          simp only [Pass.InTurn, List.map_cons, hpass, Pass.first_cons_self,
            Pass.firstCheck_cons_build]
          cases i with
          | zero =>
              obtain rfl := Option.some.inj h
              refine ⟨fun _ => ?_, fun hne => absurd (.inl rfl) hne⟩
              simpa [Called.Done, call, hpass] using hbuilt
          | succ i =>
              -- what is checked from now on bears scopes of the tree just built
              have htrees : ∀ d ∈ cs, d.pass = .check →
                  d.root.KnownTo ((start config).call c).after.table := by
                intro d hd hcheck
                rw [← map_call_calls ((start config).call c).after cs] at hd
                obtain ⟨later, hmem, rfl⟩ := List.mem_map.mp hd
                have hok : ((start config).call c).result.isOk = true := by
                  rw [hbuilt.result]
                  rfl
                exact hknown.of_scopes_subset (hlater later hmem hpass hok hcheck)
              simpa using calls_built hbuilt.phase htrees h
      | check =>
          have hrefused : ((start config).call c).Refused :=
            refused_of_phase (by simp [hpass, Pass.turn, start])
          rw [hrefused.session] at h hrest
          simp only [Pass.InTurn, List.map_cons, hpass, Pass.firstCheck_cons_check,
            Pass.first_cons_of_ne (show Pass.check ≠ Pass.build by decide)]
          cases i with
          | zero =>
              obtain rfl := Option.some.inj h
              simpa using hrefused
          | succ i => simpa [Pass.InTurn] using ih hrest h

/-- Passes only decorate, and a call out of order changes nothing.  Whatever is
asked of a fresh session, exactly the first build and the first check after it
are accepted; every other call is refused as out of order and leaves the session
and the tree as they were; and no call touches what the parser wrote. -/
theorem calls_inTurn (config : Config) {cs : List Call}
    (hown : OwnTrees ((start config).calls cs)) :
    let run := (start config).calls cs
    let passes := cs.map (·.pass)
    run.map (·.call) = cs ∧
      ∀ (i : Nat) (called : Called), run[i]? = some called →
        (called.Done ↔ Pass.InTurn passes i) ∧
        (called.Refused ↔ ¬Pass.InTurn passes i) ∧
        called.root.bare = called.call.root.bare := by
  intro run passes
  refine ⟨map_call_calls _ _, fun i called h => ?_⟩
  obtain ⟨hdone, hrefused⟩ := calls_start config hown h
  by_cases hturn : Pass.InTurn passes i
  · have hd := hdone hturn
    exact ⟨iff_of_true hd hturn, iff_of_false (fun hr => hr.not_done hd) (not_not.mpr hturn),
      hd.bare⟩
  · have hr := hrefused hturn
    exact ⟨iff_of_false hr.not_done hturn, iff_of_true hr hturn, by rw [hr.root]⟩

/-- A variable that is declared twice and used. -/
def twice : Forest := .ofTrees [
  { label := ⟨.varDecl "x" .int, 1, {}⟩ },
  { label := ⟨.varDecl "x" .int, 2, {}⟩ },
  { label := ⟨.var "x", 3, {}⟩ }]

/-- The same program, marked with its scopes. -/
def twiceMarked : Forest := .ofTrees [
  { label := ⟨.varDecl "x" .int, 1, { scope := some 0 }⟩ },
  { label := ⟨.varDecl "x" .int, 2, { scope := some 0 }⟩ },
  { label := ⟨.var "x", 3, { scope := some 0 }⟩ }]

/-- A check too early, a build, a build too many, a check, and both once more. -/
def mixedCalls : List Call :=
  [⟨.check, twice⟩, ⟨.build, twice⟩, ⟨.build, twiceMarked⟩, ⟨.check, twiceMarked⟩,
   ⟨.check, .nil⟩, ⟨.build, twice⟩]

theorem calls_inTurn_mixedCalls : OwnTrees ((start {}).calls mixedCalls) ∧
    ∃ c₀ c₁ c₂ c₃ c₄ c₅, (start {}).calls mixedCalls = [c₀, c₁, c₂, c₃, c₄, c₅] ∧
      c₀.Refused ∧ c₁.Done ∧ c₂.Refused ∧ c₃.Done ∧ c₄.Refused ∧ c₅.Refused := by
  have hown : OwnTrees ((start {}).calls mixedCalls) := by
    unfold OwnTrees
    decide +kernel
  have hturn : ∀ i, Pass.InTurn (mixedCalls.map (·.pass)) i ↔ i = 1 ∨ i = 3 := by
    intro i
    simp [Pass.InTurn, mixedCalls, Pass.first_cons_self, Pass.first_cons_of_ne,
      Pass.firstCheck_cons_build, Pass.firstCheck_cons_check]
  have h := (calls_inTurn {} hown).2
  simp only [hturn] at h
  exact ⟨hown, _, _, _, _, _, _, rfl, (h 0 _ rfl).2.1.mpr (by decide),
    (h 1 _ rfl).1.mpr (by decide), (h 2 _ rfl).2.1.mpr (by decide),
    (h 3 _ rfl).1.mpr (by decide), (h 4 _ rfl).2.1.mpr (by decide),
    (h 5 _ rfl).2.1.mpr (by decide)⟩

end Session

end CMinus
