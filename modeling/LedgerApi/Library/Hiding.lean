import LedgerApi.Library.World

/-! # Sessions that others do not see

A system in which some calls are *hidden*: what their sessions do makes no difference to the others.
The statements of the others answer alike on stores that are `alike`, and a hidden commit leaves the
store alike. Then every run is shadowed by a run of a smaller system that knows the visible calls
only, in which a hidden session is lost as soon as it starts (`Hiding.exists_shadow`). What is known
of every run of the smaller system so carries over to the larger one. -/

namespace Sessions

variable {S : Signature} {σ π ρ κ κ' α : Type}

/-- Why the hidden calls of `Y` can be left out, which leaves `Y'`. -/
structure Hiding (Y : System S σ π ρ κ α) (Y' : System S σ π ρ κ' α) where
  /-- The call of `Y'` that a call is, unless it is hidden. -/
  visible : κ → Option κ'
  /-- A call that stands for the hidden ones. -/
  idle : κ'
  /-- Stores that the visible calls cannot tell apart. -/
  alike : σ → σ → Prop
  /-- The statements of visible calls. -/
  plain : S.Stmt → Prop
  /-- What these may write. -/
  plainWrites : π → Prop
  /-- The statements of hidden calls. -/
  quiet : S.Stmt → Prop
  /-- What these may write. -/
  quietWrites : π → Prop
  blank : Y'.blank = Y.blank
  program : ∀ {c c'}, visible c = some c' →
    Y'.program c' = Y.program c ∧ (Y.program c).Uses plain fun _ => False
  plain_blank : plainWrites Y.blank
  plain_exec : ∀ {s p stmt r p'}, plain stmt → plainWrites p → Y.exec s p stmt = .ok (r, p') →
    plainWrites p'
  /-- Plain statements are answered alike. -/
  exec : ∀ {s s' p stmt}, alike s s' → plain stmt → Y'.exec s' p stmt = Y.exec s p stmt
  /-- They want the same locks. -/
  requests : ∀ {s s' p stmt}, alike s s' → plain stmt →
    Y'.requests s' p stmt = Y.requests s p stmt
  merge : ∀ {s s' p}, alike s s' → plainWrites p → alike (Y.merge s p) (Y'.merge s' p)
  quiet_program : ∀ {c}, visible c = none → (Y.program c).Uses quiet fun _ => True
  quiet_blank : quietWrites Y.blank
  quiet_exec : ∀ {s p stmt r p'}, quiet stmt → quietWrites p → Y.exec s p stmt = .ok (r, p') →
    quietWrites p'
  /-- A hidden commit makes no difference. -/
  quiet_merge : ∀ {s s' p}, alike s s' → quietWrites p → alike (Y.merge s p) s'

namespace Hiding

variable {Y : System S σ π ρ κ α} {Y' : System S σ π ρ κ' α} (X : Hiding Y Y')

/-- A slot of a run and the same slot of its shadow: a visible session is at the same point, and a
hidden one is over. -/
inductive Shadow : Slot S π ρ κ α → Slot S π ρ κ' α → Prop
  | visible {c : κ} {c' : κ'} {prog : Prog S α} {p : π} {held acquired : List (Lock ρ)}
      (hcall : X.visible c = some c') (hprog : prog.Uses X.plain fun _ => False)
      (hwrites : X.plainWrites p) :
      Shadow (.running ⟨c, prog, p, held, acquired⟩) (.running ⟨c', prog, p, held, acquired⟩)
  | hidden {s : Session S π ρ κ α} {c' : κ'} {v' : Verdict S α} (hcall : X.visible s.call = none)
      (hprog : s.prog.Uses X.quiet fun _ => True) (hwrites : X.quietWrites s.pending) :
      Shadow (.running s) (.finished c' v')
  | finished {c : κ} {v : Verdict S α} {c' : κ'} {v' : Verdict S α} :
      Shadow (.finished c v) (.finished c' v')

/-- A world and its shadow. -/
structure Shadows (w : World S σ π ρ κ α) (w' : World S σ π ρ κ' α) : Prop where
  alike : X.alike w.shared.store w'.shared.store
  log : w'.shared.log = w.shared.log.filterMap X.visible
  length : w'.slots.length = w.slots.length
  slot : ∀ (i : ℕ) x x', w.slots[i]? = some x → w'.slots[i]? = some x' → X.Shadow x x'

variable {X} {w v : World S σ π ρ κ α} {w' : World S σ π ρ κ' α}

/-- The slot that shadows a slot. -/
theorem Shadows.exists_slot (h : X.Shadows w w') {i : ℕ} {x : Slot S π ρ κ α}
    (hx : w.slots[i]? = some x) : ∃ x', w'.slots[i]? = some x' ∧ X.Shadow x x' := by
  have hlt : i < w'.slots.length := by
    rw [h.length]
    exact (List.getElem?_eq_some_iff.mp hx).1
  exact ⟨_, List.getElem?_eq_getElem hlt, h.slot i x _ hx (List.getElem?_eq_getElem hlt)⟩

/-- A visible session runs in the shadow too. -/
theorem Shadows.running (h : X.Shadows w w') {i : ℕ} {s : Session S π ρ κ α} (hs : w.Running i s)
    {c' : κ'} (hcall : X.visible s.call = some c') :
    w'.Running i ⟨c', s.prog, s.pending, s.held, s.acquired⟩ ∧
      s.prog.Uses X.plain (fun _ => False) ∧ X.plainWrites s.pending := by
  obtain ⟨x', hx', hshadow⟩ := h.exists_slot hs
  cases hshadow with
  | visible hcall' hprog hwrites =>
      obtain rfl := Option.some.inj (hcall'.symm.trans hcall)
      exact ⟨hx', hprog, hwrites⟩
  | hidden hcall' _ _ =>
      rw [hcall'] at hcall
      cases hcall

/-- A hidden session uses quiet statements only. -/
theorem Shadows.quiet (h : X.Shadows w w') {i : ℕ} {s : Session S π ρ κ α} (hs : w.Running i s)
    (hcall : X.visible s.call = none) :
    s.prog.Uses X.quiet (fun _ => True) ∧ X.quietWrites s.pending := by
  obtain ⟨x', -, hshadow⟩ := h.exists_slot hs
  cases hshadow with
  | visible hcall' _ _ =>
      rw [hcall] at hcall'
      cases hcall'
  | hidden _ hprog hwrites => exact ⟨hprog, hwrites⟩

/-- A slot holds no more locks in the shadow. -/
theorem Shadow.locks_subset {x : Slot S π ρ κ α} {x' : Slot S π ρ κ' α} (h : X.Shadow x x') :
    x'.locks ⊆ x.locks := by
  cases h with
  | visible => exact List.Subset.refl _
  | hidden => exact List.nil_subset _
  | finished => exact List.nil_subset _

/-- What can be granted can be granted in the shadow. -/
theorem Shadows.grantable (h : X.Shadows w w') {i : ℕ} {l : Lock ρ}
    (hg : System.Grantable w i l) : System.Grantable w' i l := by
  intro j hj hji x' hx' l' hl'
  have hlt : j < w.slots.length := by
    rw [← h.length]
    exact List.mem_range.mp hj
  have hx : w.slots[j]? = some w.slots[j] := List.getElem?_eq_getElem hlt
  exact hg j (List.mem_range.mpr hlt) hji _ hx l' ((h.slot j _ _ hx hx').locks_subset hl')

/-- One slot changes, here and in the shadow. -/
theorem Shadows.set (h : X.Shadows w w') {i : ℕ} {g : Shared S σ κ} {g' : Shared S σ κ'}
    {x : Slot S π ρ κ α} {x' : Slot S π ρ κ' α} (halike : X.alike g.store g'.store)
    (hlog : g'.log = g.log.filterMap X.visible) (hx : X.Shadow x x') :
    X.Shadows ⟨g, w.slots.set i x⟩ ⟨g', w'.slots.set i x'⟩ := by
  refine ⟨halike, hlog, by simp [h.length], fun j y y' hy hy' => ?_⟩
  rw [List.getElem?_set] at hy hy'
  by_cases hij : i = j
  · rw [if_pos hij] at hy hy'
    split at hy
    case isTrue =>
      split at hy'
      case isTrue => rwa [← Option.some.inj hy, ← Option.some.inj hy']
      case isFalse => cases hy'
    case isFalse => cases hy
  · rw [if_neg hij] at hy hy'
    exact h.slot j y y' hy hy'

/-- One slot changes to one that the same slot shadows still. -/
theorem Shadows.set_left (h : X.Shadows w w') {i : ℕ} {g : Shared S σ κ} {x : Slot S π ρ κ α}
    (halike : X.alike g.store w'.shared.store)
    (hlog : w'.shared.log = g.log.filterMap X.visible)
    (hx : ∀ x', w'.slots[i]? = some x' → X.Shadow x x') :
    X.Shadows ⟨g, w.slots.set i x⟩ w' := by
  refine ⟨halike, hlog, by simp [h.length], fun j y y' hy hy' => ?_⟩
  rw [List.getElem?_set] at hy
  by_cases hij : i = j
  · rw [if_pos hij] at hy
    split at hy
    case isTrue =>
      rw [← Option.some.inj hy]
      exact hx y' (hij ▸ hy')
    case isFalse => cases hy
  · rw [if_neg hij] at hy
    exact h.slot j y y' hy hy'

/-- In the shadow a hidden session has finished; here it may become anything that this shadows. -/
theorem Shadows.set_hidden (h : X.Shadows w w') {i : ℕ} {s : Session S π ρ κ α}
    (hs : w.Running i s) (hcall : X.visible s.call = none) {g : Shared S σ κ} {x : Slot S π ρ κ α}
    (halike : X.alike g.store w'.shared.store)
    (hlog : w'.shared.log = g.log.filterMap X.visible)
    (hx : ∀ c' v', X.Shadow x (.finished c' v')) : X.Shadows ⟨g, w.slots.set i x⟩ w' := by
  obtain ⟨x', hx', hshadow⟩ := h.exists_slot hs
  refine h.set_left halike hlog fun y' hy' => ?_
  obtain rfl := Option.some.inj (hx'.symm.trans hy')
  cases hshadow with
  | visible hcall' =>
      rw [hcall] at hcall'
      cases hcall'
  | hidden => exact hx _ _

/-- A slot is added, here and in the shadow. -/
theorem Shadows.append (h : X.Shadows w w') {x : Slot S π ρ κ α} {x' : Slot S π ρ κ' α}
    (hx : X.Shadow x x') :
    X.Shadows { w with slots := w.slots ++ [x] } { w' with slots := w'.slots ++ [x'] } := by
  refine ⟨h.alike, h.log, by simp [h.length], fun j y y' hy hy' => ?_⟩
  rw [List.getElem?_append] at hy hy'
  by_cases hj : j < w.slots.length
  · rw [if_pos hj] at hy
    rw [if_pos (h.length ▸ hj)] at hy'
    exact h.slot j y y' hy hy'
  · rw [if_neg hj] at hy
    rw [if_neg (h.length ▸ hj), h.length] at hy'
    obtain ⟨hlt, hy⟩ := List.getElem?_eq_some_iff.mp hy
    have hzero : j - w.slots.length = 0 := by simpa using hlt
    rw [hzero] at hy'
    simp only [hzero, List.getElem_cons_zero] at hy
    rw [← hy, ← Option.some.inj hy']
    exact hx

/-- The locks that a visible session still needs. -/
theorem Shadows.missing [DecidableEq ρ] (h : X.Shadows w w') {s : Session S π ρ κ α} (c' : κ')
    (hprog : s.prog.Uses X.plain fun _ => False) :
    Y'.missing w'.shared ⟨c', s.prog, s.pending, s.held, s.acquired⟩ = Y.missing w.shared s := by
  unfold System.missing
  cases hcase : s.prog with
  | exec stmt next =>
      rw [hcase] at hprog
      dsimp only
      rw [X.requests h.alike hprog.1]
      rfl
  | _ => rfl

/-! ## Steps -/

section Steps

variable [DecidableEq ρ] {w₀' : World S σ π ρ κ' α} (h : X.Shadows w w')
  (hw' : Y'.Reachable w₀' w')
include h hw'

/-- A visible session starts in the shadow too, and a hidden one is lost at once. -/
theorem Shadows.start (c : κ) :
    ∃ v', Y'.Reachable w₀' v' ∧
      X.Shadows { w with slots := w.slots ++ [.running (Y.fresh c)] } v' := by
  cases hcall : X.visible c with
  | some c' =>
      obtain ⟨hprogram, huses⟩ := X.program hcall
      have hfresh : Y'.fresh c' = ⟨c', Y.program c, Y.blank, [], []⟩ := by
        rw [System.fresh, hprogram, X.blank]
      refine ⟨_, hw'.step trivial (a := .start c') rfl, h.append ?_⟩
      rw [hfresh]
      exact .visible hcall huses X.plain_blank
  | none =>
      have hlost : Y'.step { w' with slots := w'.slots ++ [.running (Y'.fresh X.idle)] }
          (.fault w'.slots.length) =
            some { w' with slots := w'.slots ++ [.finished X.idle .lost] } := by
        simp [System.step, System.fresh]
      refine ⟨_, (hw'.step trivial (a := .start X.idle) rfl).step trivial hlost, h.append ?_⟩
      exact .hidden hcall (X.quiet_program hcall) X.quiet_blank

/-- A lock that is granted to a visible session is granted to it in the shadow. -/
theorem Shadows.acquire {i : ℕ} {s : Session S π ρ κ α} {l : Lock ρ} {rest : List (Lock ρ)}
    (hs : w.Running i s) (hl : Y.missing w.shared s = l :: rest)
    (hgrant : System.Grantable w i l) :
    ∃ v', Y'.Reachable w₀' v' ∧ X.Shadows
      { w with slots := w.slots.set i (.running { s with acquired := s.acquired ++ [l] }) } v' := by
  cases hcall : X.visible s.call with
  | some c' =>
      obtain ⟨hs', huses, hwrites⟩ := h.running hs hcall
      have hstep : Y'.step w' (.acquire i) = some { w' with
            slots := w'.slots.set i
              (.running ⟨c', s.prog, s.pending, s.held, s.acquired ++ [l]⟩) } := by
        unfold World.Running at hs'
        simp only [System.step, hs', h.missing _ huses, hl, if_pos (h.grantable hgrant)]
      exact ⟨_, hw'.step trivial hstep, h.set h.alike h.log (.visible hcall huses hwrites)⟩
  | none =>
      obtain ⟨huses, hwrites⟩ := h.quiet hs hcall
      exact ⟨w', hw', h.set_hidden hs hcall h.alike h.log fun _ _ => .hidden hcall huses hwrites⟩

/-- A visible session that is lost is lost in the shadow. -/
theorem Shadows.fault {i : ℕ} {s : Session S π ρ κ α} (hs : w.Running i s) :
    ∃ v', Y'.Reachable w₀' v' ∧
      X.Shadows { w with slots := w.slots.set i (.finished s.call .lost) } v' := by
  obtain ⟨x', hx', hshadow⟩ := h.exists_slot hs
  cases hshadow with
  | @visible c c' prog p held acquired hcall hprog hwrites =>
      have hstep : Y'.step w' (.fault i) =
          some { w' with slots := w'.slots.set i (.finished c' .lost) } := by
        simp only [System.step, hx']
      exact ⟨_, hw'.step trivial hstep, h.set h.alike h.log .finished⟩
  | @hidden _ c' v' =>
      refine ⟨w', hw', h.set_left h.alike h.log fun y' hy' => ?_⟩
      obtain rfl := Option.some.inj (hx'.symm.trans hy')
      exact .finished

/-- What a visible session does next it does in the shadow. -/
theorem Shadows.advance_visible {i : ℕ} {s : Session S π ρ κ α} {c' : κ'} (hs : w.Running i s)
    (hcall : X.visible s.call = some c') (hmiss : Y.missing w.shared s = []) :
    ∃ v', Y'.Reachable w₀' v' ∧
      X.Shadows ⟨(Y.advance w.shared s).1, w.slots.set i (Y.advance w.shared s).2⟩ v' := by
  obtain ⟨hs', huses, hwrites⟩ := h.running hs hcall
  obtain ⟨c, prog, p, held, acquired⟩ := s
  have hstep : Y'.step w' (.advance i) =
      some ⟨(Y'.advance w'.shared ⟨c', prog, p, held, acquired⟩).1,
        w'.slots.set i (Y'.advance w'.shared ⟨c', prog, p, held, acquired⟩).2⟩ := by
    unfold World.Running at hs'
    have hmiss' := (h.missing c' huses).trans hmiss
    dsimp only at hs' hmiss'
    simp only [System.step, hs', hmiss', if_pos]
  refine ⟨_, hw'.step trivial hstep, ?_⟩
  cases prog with
  | ret a => exact h.set h.alike h.log .finished
  | raise e => exact h.set h.alike h.log .finished
  | exec stmt next =>
      obtain ⟨hplain, hnext⟩ := huses
      have hexec := X.exec (p := p) h.alike hplain
      unfold System.advance
      dsimp only
      rw [hexec]
      cases hres : Y.exec w.shared.store p stmt with
      | ok rp =>
          obtain ⟨r, p'⟩ := rp
          exact h.set h.alike h.log (.visible hcall (hnext r) (X.plain_exec hplain hwrites hres))
      | error e => exact h.set h.alike h.log (.visible hcall trivial hwrites)
  | commit next =>
      refine h.set (X.merge h.alike hwrites) ?_ ?_
      · show w'.shared.log ++ [c'] = (w.shared.log ++ [c]).filterMap X.visible
        rw [h.log, List.filterMap_append]
        simp only [List.filterMap_cons, List.filterMap_nil]
        dsimp only at hcall
        rw [hcall]
      · show X.Shadow (.running ⟨c, next, Y.blank, [], []⟩) (.running ⟨c', next, Y'.blank, [], []⟩)
        rw [X.blank]
        exact .visible hcall huses X.plain_blank
  | emit m next => exact huses.1.elim

/-- What a hidden session does next makes no difference. -/
theorem Shadows.advance_hidden {i : ℕ} {s : Session S π ρ κ α} (hs : w.Running i s)
    (hcall : X.visible s.call = none) :
    ∃ v', Y'.Reachable w₀' v' ∧
      X.Shadows ⟨(Y.advance w.shared s).1, w.slots.set i (Y.advance w.shared s).2⟩ v' := by
  obtain ⟨huses, hwrites⟩ := h.quiet hs hcall
  refine ⟨w', hw', ?_⟩
  obtain ⟨c, prog, p, held, acquired⟩ := s
  cases prog with
  | ret a => exact h.set_hidden hs hcall h.alike h.log fun _ _ => .finished
  | raise e => exact h.set_hidden hs hcall h.alike h.log fun _ _ => .finished
  | exec stmt next =>
      obtain ⟨hquiet, hnext⟩ := huses
      unfold System.advance
      dsimp only
      cases hres : Y.exec w.shared.store p stmt with
      | ok rp =>
          refine h.set_hidden hs hcall h.alike h.log fun _ _ => ?_
          exact .hidden hcall (hnext rp.1) (X.quiet_exec hquiet hwrites hres)
      | error e =>
          exact h.set_hidden hs hcall h.alike h.log fun _ _ => .hidden hcall trivial hwrites
  | commit next =>
      refine h.set_hidden hs hcall (X.quiet_merge h.alike hwrites) ?_ fun _ _ => ?_
      · show w'.shared.log = (w.shared.log ++ [c]).filterMap X.visible
        rw [h.log, List.filterMap_append]
        simp only [List.filterMap_cons, List.filterMap_nil]
        dsimp only at hcall
        rw [hcall, List.append_nil]
      · exact .hidden hcall huses X.quiet_blank
  | emit m next =>
      exact h.set_hidden hs hcall h.alike h.log fun _ _ => .hidden hcall huses.2 hwrites

/-- **Step lemma**: whatever happens, the shadow follows. -/
theorem Shadows.step {a : System.Action κ} (hstep : Y.step w a = some v) :
    ∃ v', Y'.Reachable w₀' v' ∧ X.Shadows v v' := by
  rcases System.step_cases hstep with ⟨c, -, rfl⟩ | ⟨i, s, l, rest, -, hs, hl, hgrant, rfl⟩ |
    ⟨i, s, -, hs, hmiss, rfl⟩ | ⟨i, s, -, hs, rfl⟩
  · exact h.start hw' c
  · exact h.acquire hw' hs hl hgrant
  · cases hcall : X.visible s.call with
    | some c' => exact h.advance_visible hw' hs hcall hmiss
    | none => exact h.advance_hidden hw' hs hcall
  · exact h.fault hw' hs

end Steps

/-- **Run lemma**: every run of the system has a shadow among those of the smaller one. -/
theorem exists_shadow [DecidableEq ρ] (X : Hiding Y Y') (hrefl : ∀ s, X.alike s s) {s : σ}
    (h : Y.Reachable (World.init s) w) :
    ∃ w', Y'.Reachable (World.init s) w' ∧ X.Shadows w w' := by
  induction h with
  | refl => exact ⟨World.init s, .refl, hrefl s, rfl, rfl, fun i x x' hx => by cases hx⟩
  | step _ _ hstep ih =>
      obtain ⟨w', hw', hshadows⟩ := ih
      exact hshadows.step hw' hstep

end Hiding

end Sessions
