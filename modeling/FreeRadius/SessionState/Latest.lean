import FreeRadius.Library.Ledger
import FreeRadius.SessionState.Calls
import FreeRadius.SessionState.Values

/-!
# Only the latest value restores a session

A run is recorded in a ledger: `fr_request_to_state` opens an issue, with the session and the round
it belongs to, the value sent and what was saved; a value is closed when its entry is taken by
`fr_state_to_request`, discarded, or found expired. `Kept` says how the tree, the attached entries
and the ledger belong together, and is kept by every step.
-/

namespace FreeRadius.SessionState

open Library List Ledger

variable {P D : Type}

section Records

/-- What one successful call of `fr_request_to_state` issued. The number of a session is that of its
first entry. -/
structure Issue (P D : Type) where
  session : ℕ
  round : ℕ
  value : StateValue
  pairs : List P
  data : List D

abbrev Log (P D : Type) := List (LedgerEntry (Issue P D) StateValue)

/-- The value that a look-up for a request takes out of the tree. -/
def takenValue (h : Host) (t : Tree P D) (r : Request P D) : List StateValue :=
  match r.requestStates.head? with
  | none => []
  | some vp => if (stateEntryFindAndUnlink h t vp).1.isSome then [toState h vp] else []

/-- The session and the round that saving a request belongs to. -/
def roundOf (log : Log P D) (t : Tree P D) (r : Request P D) : ℕ × ℕ :=
  match r.attached with
  | none => (t.id, 0)
  | some o =>
    match (grants log).find? fun i => decide (xorContext t.contextId i.value = o.state) with
    | none => (t.id, 0)
    | some i => (i.session, i.round + 1)

/-- What saving a request issues, if anything. -/
def issued (h : Host) (log : Log P D) (now : ℤ) (rand : StateValue) (t : Tree P D)
    (r : Request P D) : Log P D :=
  match frRequestToState h now rand t r with
  | (.error _, _, _) => []
  | (.ok _, _, r') => [.opened
    { session := (roundOf log t r).1, round := (roundOf log t r).2
      value := toState h (r'.replyStates.headD [])
      pairs := r.sessionState, data := r.persistent }]

/-- What a step adds to the ledger. -/
def events (h : Host) (log : Log P D) (s : System P D) : Step P D → Log P D
  | .requestToState k now rand =>
    match s.requests[k]? with
    | none => []
    | some r =>
      if r.idle then []
      else
        ((expired now s.tree).map fun e => xorContext s.tree.contextId e.state).map .closed ++
          issued h log now rand s.tree r
  | .stateToRequest k =>
    match s.requests[k]? with
    | none => []
    | some r => (takenValue h s.tree r).map .closed
  | .discard k =>
    match s.requests[k]? with
    | none => []
    | some r => (takenValue h s.tree r).map .closed
  | .arrive _ => []
  | .process _ _ => []
  | .finish _ => []

/-- The values are drawn by the server and not set by a module, the first value of a session is new,
and a session has fewer than 256 rounds. -/
def Assumed (h : Host) (log : Log P D) (s : System P D) : Step P D → Prop
  | .requestToState k _ rand =>
    ∀ r, s.requests[k]? = some r → r.idle = false →
      r.replyStates = [] ∧
      (r.attached = none → ∀ i ∈ grants log, i.round = 0 →
        i.value ≠ stamp h s.tree.serverId 0 rand) ∧
      ∀ o, r.attached = some o → o.tries + 2 < 256
  | _ => True

/-- A run from an empty tree, with its ledger. -/
inductive Traced (h : Host) (start : System P D) : System P D → Log P D → Prop
  | init : Traced h start start []
  | step {s : System P D} {log : Log P D} (step : Step P D) (run : Traced h start s log)
      (assumed : Assumed h log s step) :
      Traced h start (s.step h step) (log ++ events h log s step)

/-- The value was issued with these data, it has not been taken, discarded or found expired since,
and its session has been issued no other value since. -/
def Latest (log : Log P D) (v : StateValue) (pairs : List P) (data : List D) : Prop :=
  ∃ before i after, log = before ++ .opened i :: after ∧
    i.value = v ∧ i.pairs = pairs ∧ i.data = data ∧
    .closed v ∉ after ∧ ∀ j, .opened j ∈ after → j.session ≠ i.session

/-- The value was issued, and has been used, discarded or found expired since, or its session has
been issued another value since. -/
def Spent (log : Log P D) (v : StateValue) : Prop :=
  ∃ before i after, log = before ++ .opened i :: after ∧ i.value = v ∧
    (.closed v ∈ after ∨ ∃ j, .opened j ∈ after ∧ j.session = i.session)

end Records

variable {i : Issue P D} {e : Entry P D} {attached' : List (Entry P D)}

section Invariant

/-- An entry of the tree holds what was issued. -/
structure Holds (c : Fin 4 → UInt8) (e : Entry P D) (i : Issue P D) : Prop where
  state : e.state = xorContext c i.value
  tries : e.tries = i.round
  ctx : e.ctx = some i.pairs
  data : e.data = i.data
  thawed : e.thawed = none

/-- No issue of the session has a later round. -/
def Last (log : Log P D) (i : Issue P D) : Prop :=
  ∀ j ∈ grants log, j.session = i.session → j.round ≤ i.round

/-- How the ledger, the entries of the tree and those attached to requests belong together. -/
structure Kept (h : Host) (c : Fin 4 → UInt8) (serverId : UInt8) (id : ℕ) (entries attached :
    List (Entry P D)) (log : Log P D) : Prop where
  held : ∀ e ∈ entries, ∃ i, Open Issue.value log i ∧ Holds c e i
  linked : ∀ i, Open Issue.value log i → ∃ e ∈ entries, Holds c e i
  entries_nodup : (entries.map Entry.state).Nodup
  taken : ∀ a ∈ attached, ∃ i ∈ grants log, ¬ Open Issue.value log i ∧
    a.state = xorContext c i.value ∧ a.tries = i.round ∧ Last log i
  attached_nodup : (attached.map Entry.state).Nodup
  last : ∀ i, Open Issue.value log i → Last log i
  chained : ∀ i ∈ grants log, i.round < 255 ∧ ∃ f ∈ grants log,
    f.session = i.session ∧ f.round = 0 ∧ IsFirst h serverId f.value ∧
      i.value = chain h c serverId f.value i.round
  ordered : (grants log).Pairwise fun i j => i.session = j.session → i.round < j.round
  firsts : ∀ i ∈ grants log, ∀ j ∈ grants log, i.round = 0 → j.round = 0 →
    i.value = j.value → i.session = j.session
  sessions : ∀ i ∈ grants log, i.session < id

variable {h : Host} {c : Fin 4 → UInt8} {serverId : UInt8} {id : ℕ}
  {entries attached : List (Entry P D)} {log : Log P D}

theorem kept_nil (h : Host) (c : Fin 4 → UInt8) (serverId : UInt8) (id : ℕ) :
    Kept h c serverId id ([] : List (Entry P D)) [] [] where
  held := nofun
  linked := by
    rintro i ⟨before, after, heq, -⟩
    cases before <;> cases heq
  entries_nodup := nodup_nil
  taken := nofun
  attached_nodup := nodup_nil
  last := by
    rintro i ⟨before, after, heq, -⟩
    cases before <;> cases heq
  chained := nofun
  ordered := List.Pairwise.nil
  firsts := nofun
  sessions := nofun

theorem Holds.value_eq (hi : Holds c e i) : i.value = xorContext c e.state := by
  rw [hi.state, xorContext_xorContext]

section

variable (hk : Kept h c serverId id entries attached log)

include hk

variable {j : Issue P D} {id' : ℕ} {entries' : List (Entry P D)}

theorem Kept.eq_of_round (hi : i ∈ grants log) (hj : j ∈ grants log)
    (hsession : i.session = j.session) (hround : i.round = j.round) : i = j := by
  by_contra hne
  have hpair : (grants log).Pairwise fun i j => i.session = j.session → i.round ≠ j.round :=
    hk.ordered.imp fun hlt heq => (hlt heq).ne
  have : Std.Symm fun i j : Issue P D => i.session = j.session → i.round ≠ j.round :=
    ⟨fun i j hij heq => (hij heq.symm).symm⟩
  exact hpair.forall hi hj hne hsession hround

theorem Kept.eq_of_value (hi : i ∈ grants log) (hj : j ∈ grants log)
    (hvalue : i.value = j.value) : i = j := by
  obtain ⟨hlt, f, hf, hfs, hf0, hfirst, hchain⟩ := hk.chained i hi
  obtain ⟨hlt', f', hf', hfs', hf0', hfirst', hchain'⟩ := hk.chained j hj
  obtain ⟨hvalues, hround⟩ := chain_inj hfirst hfirst' hlt hlt' (hchain.symm.trans
    (hvalue.trans hchain'))
  have hsession : f.session = f'.session := hk.firsts f hf f' hf' hf0 hf0' hvalues
  exact hk.eq_of_round hi hj (hfs.symm.trans (hsession.trans hfs')) hround

theorem Kept.mono (hle : id ≤ id') : Kept h c serverId id' entries attached log :=
  { hk with sessions := fun i hi => (hk.sessions i hi).trans_le hle }

theorem Kept.detach (hsub : attached' ⊆ attached) (hnodup : (attached'.map Entry.state).Nodup) :
    Kept h c serverId id entries attached' log :=
  { hk with taken := fun a ha => hk.taken a (hsub ha), attached_nodup := hnodup }

theorem Kept.close {ks : List StateValue} (hsub : entries'.Sublist entries)
    (hmem : ∀ e ∈ entries, e ∈ entries' ↔ xorContext c e.state ∉ ks) :
    Kept h c serverId id entries' attached (log ++ ks.map .closed) := by
  have hgrants := grants_append_closed log ks
  refine
    { held := fun e he => ?_
      linked := fun i hi => ?_
      entries_nodup := hk.entries_nodup.sublist (hsub.map _)
      taken := fun a ha => ?_
      attached_nodup := hk.attached_nodup
      last := fun i hi => ?_
      chained := hgrants ▸ hk.chained
      ordered := hgrants ▸ hk.ordered
      firsts := hgrants ▸ hk.firsts
      sessions := hgrants ▸ hk.sessions }
  · obtain ⟨i, hopen, hholds⟩ := hk.held e (hsub.subset he)
    have hnot : i.value ∉ ks := hholds.value_eq ▸ (hmem e (hsub.subset he)).mp he
    exact ⟨i, open_append_closed_iff.mpr ⟨hopen, hnot⟩, hholds⟩
  · obtain ⟨hopen, hnot⟩ := open_append_closed_iff.mp hi
    obtain ⟨e, he, hholds⟩ := hk.linked i hopen
    exact ⟨e, (hmem e he).mpr (hholds.value_eq ▸ hnot), hholds⟩
  · obtain ⟨i, hi, hclosed, hrest⟩ := hk.taken a ha
    refine ⟨i, hgrants.symm ▸ hi, fun hopen => ?_, ?_⟩
    · exact hclosed (open_append_closed_iff.mp hopen).1
    · rwa [Last, hgrants]
  · have hlast := hk.last i (open_append_closed_iff.mp hi).1
    rwa [Last, hgrants]

theorem Kept.take {a : Entry P D} (he : e ∈ entries) (hsub : entries'.Sublist entries)
    (hmem : ∀ e' ∈ entries, e' ∈ entries' ↔ e'.state ≠ e.state) (hstate : a.state = e.state)
    (htries : a.tries = e.tries) :
    Kept h c serverId id entries' (a :: attached)
      (log ++ [xorContext c e.state].map .closed) := by
  have hclose : Kept h c serverId id entries' attached (log ++ [xorContext c e.state].map .closed) := by
    refine hk.close hsub fun e' he' => ?_
    rw [hmem e' he', mem_singleton, (xorContext_injective c).eq_iff]
  obtain ⟨i, hopen, hholds⟩ := hk.held e he
  have hgrants := grants_append_closed log [xorContext c e.state]
  refine { hclose with taken := ?_, attached_nodup := ?_ }
  · intro b hb
    obtain rfl | hb := mem_cons.mp hb
    · refine ⟨i, hgrants.symm ▸ hopen.mem_grants, fun hstill => ?_,
        hstate.trans hholds.state, htries.trans hholds.tries, ?_⟩
      · refine (open_append_closed_iff.mp hstill).2 ?_
        rw [hholds.value_eq]
        exact mem_singleton_self _
      · have hlast := hk.last i hopen
        rwa [Last, hgrants]
    · exact hclose.taken b hb
  · -- an entry that was attached before has another value, since this one was still open
    rw [map_cons, nodup_cons]
    refine ⟨fun hmem => ?_, hk.attached_nodup⟩
    obtain ⟨b, hb, hbstate⟩ := mem_map.mp hmem
    obtain ⟨j, hj, hclosed, hjstate, -⟩ := hk.taken b hb
    have hvalue : xorContext c i.value = xorContext c j.value := by
      rw [← hholds.state, ← hstate, ← hbstate, hjstate]
    have hij : i = j := hk.eq_of_value hopen.mem_grants hj (xorContext_injective c hvalue)
    exact hclosed (hij ▸ hopen)

/-- What a value must be to be issued: the next of its session, made in the way of its round, and
no entry of another request belongs to the session. -/
structure Next (h : Host) (c : Fin 4 → UInt8) (serverId : UInt8) (attached : List (Entry P D))
    (log : Log P D) (i : Issue P D) : Prop where
  later : ∀ j ∈ grants log, j.session = i.session → j.round < i.round
  closed : ∀ j, Open Issue.value log j → j.session ≠ i.session
  apart : ∀ a ∈ attached, ∀ j ∈ grants log, a.state = xorContext c j.value →
    j.session ≠ i.session
  round_lt : i.round < 255
  chained : ∃ f ∈ grants log ++ [i], f.session = i.session ∧ f.round = 0 ∧
    IsFirst h serverId f.value ∧ i.value = chain h c serverId f.value i.round
  first : i.round = 0 → ∀ j ∈ grants log, j.round = 0 → j.value ≠ i.value

theorem Next.value_ne (hi : Next h c serverId attached' log i) :
    ∀ j ∈ grants log, j.value ≠ i.value := by
  intro j hj hvalue
  obtain ⟨f, hf, hfs, hf0, hfirst, hchain⟩ := hi.chained
  obtain ⟨hlt, g, hg, hgs, hg0, hgfirst, hgchain⟩ := hk.chained j hj
  obtain ⟨hvalues, hround⟩ := chain_inj hgfirst hfirst hlt hi.round_lt
    (hgchain.symm.trans (hvalue.trans hchain))
  obtain hf | hf := mem_append.mp hf
  · have hsession : g.session = f.session := hk.firsts g hg f hf hg0 hf0 hvalues
    have hlater := hi.later j hj (hgs.symm.trans (hsession.trans hfs))
    omega
  · have hfi : f = i := mem_singleton.mp hf
    subst hfi
    exact hi.first hf0 j hj (hround.trans hf0) hvalue

theorem Kept.issue (hholds : Holds c e i) (hsub : attached' ⊆ attached)
    (hnodup : (attached'.map Entry.state).Nodup) (hi : Next h c serverId attached' log i)
    (hid : id ≤ id') (hsession : i.session < id') :
    Kept h c serverId id' (entries ++ [e]) attached' (log ++ [.opened i]) := by
  have hgrants : grants (log ++ [.opened i]) = grants log ++ [i] := by simp
  have hmem : ∀ {j}, j ∈ grants (log ++ [.opened i]) ↔ j ∈ grants log ∨ j = i := by
    simp [hgrants]
  refine
    { held := fun e' he' => ?_
      linked := fun j hj => ?_
      entries_nodup := ?_
      taken := fun a ha => ?_
      attached_nodup := hnodup
      last := fun j hj => ?_
      chained := ?_
      ordered := ?_
      firsts := ?_
      sessions := ?_ }
  · obtain he' | he' := mem_append.mp he'
    · obtain ⟨j, hopen, hj⟩ := hk.held e' he'
      exact ⟨j, open_append_opened_iff.mpr (.inl hopen), hj⟩
    · rw [mem_singleton.mp he']
      exact ⟨i, open_append_opened_iff.mpr (.inr rfl), hholds⟩
  · obtain hopen | rfl := open_append_opened_iff.mp hj
    · obtain ⟨e', he', hj⟩ := hk.linked j hopen
      exact ⟨e', mem_append_left _ he', hj⟩
    · exact ⟨e, mem_append_right _ (mem_singleton_self e), hholds⟩
  · rw [map_append, map_singleton, ← concat_eq_append, nodup_concat]
    refine ⟨fun hmem => ?_, hk.entries_nodup⟩
    obtain ⟨e', he', hstate⟩ := mem_map.mp hmem
    obtain ⟨j, hopen, hj⟩ := hk.held e' he'
    refine Next.value_ne hk hi j hopen.mem_grants ?_
    rw [hj.value_eq, hholds.value_eq, hstate]
  · obtain ⟨j, hj, hclosed, hstate, htries, hlast⟩ := hk.taken a (hsub ha)
    have hapart := hi.apart a ha j hj hstate
    refine ⟨j, hmem.mpr (.inl hj), fun hopen => ?_, hstate, htries, fun l hl hsame => ?_⟩
    · obtain hopen | rfl := open_append_opened_iff.mp hopen
      · exact hclosed hopen
      · exact hapart rfl
    · obtain hl | rfl := hmem.mp hl
      · exact hlast l hl hsame
      · exact absurd hsame.symm hapart
  · intro l hl hsame
    obtain hopen | rfl := open_append_opened_iff.mp hj
    · obtain hl | rfl := hmem.mp hl
      · exact hk.last j hopen l hl hsame
      · exact absurd hsame.symm (hi.closed j hopen)
    · obtain hl | rfl := hmem.mp hl
      · exact (hi.later l hl hsame).le
      · exact Nat.le_refl _
  · intro j hj
    rw [hgrants]
    obtain hj | rfl := hmem.mp hj
    · obtain ⟨hlt, f, hf, hrest⟩ := hk.chained j hj
      exact ⟨hlt, f, mem_append_left _ hf, hrest⟩
    · exact ⟨hi.round_lt, hi.chained⟩
  · rw [hgrants, pairwise_append]
    refine ⟨hk.ordered, pairwise_singleton _ _, fun j hj l hl => ?_⟩
    rw [mem_singleton.mp hl]
    exact hi.later j hj
  · intro j hj l hl hj0 hl0 hvalue
    obtain hj' | rfl := hmem.mp hj <;> obtain hl' | rfl := hmem.mp hl
    · exact hk.firsts j hj' l hl' hj0 hl0 hvalue
    · exact absurd hvalue (Next.value_ne hk hi j hj')
    · exact absurd hvalue.symm (Next.value_ne hk hi l hl')
    · rfl
  · intro j hj
    obtain hj | rfl := hmem.mp hj
    · exact (hk.sessions j hj).trans_le hid
    · exact hsession

theorem next_first (hsession : i.session = id)
    (hround : i.round = 0) (hfirst : IsFirst h serverId i.value)
    (hfresh : ∀ j ∈ grants log, j.round = 0 → j.value ≠ i.value) :
    Next h c serverId attached log i := by
  have hapart : ∀ j ∈ grants log, j.session ≠ i.session := fun j hj =>
    hsession ▸ (hk.sessions j hj).ne
  exact
    { later := fun j hj heq => absurd heq (hapart j hj)
      closed := fun j hj => hapart j hj.mem_grants
      apart := fun a _ j hj _ => hapart j hj
      round_lt := by omega
      chained := ⟨i, mem_append_right _ (mem_singleton_self i), rfl, hround, hfirst,
        by rw [hround]; rfl⟩
      first := fun _ => hfresh }

end

theorem next_round {a : Entry P D} {rest : List (Entry P D)}
    (hk : Kept h c serverId id entries (a :: rest) log) {j : Issue P D}
    (hj : j ∈ grants log) (hstate : a.state = xorContext c j.value)
    (hsession : i.session = j.session) (hround : i.round = j.round + 1) (hlt : i.round < 255)
    (hvalue : i.value = stamp h serverId i.round a.state) : Next h c serverId rest log i := by
  obtain ⟨j', hj', hclosed, hstate', -, hlast⟩ := hk.taken a mem_cons_self
  obtain rfl : j = j' :=
    hk.eq_of_value hj hj' (xorContext_injective c (hstate.symm.trans hstate'))
  refine
    { later := fun l hl hsame => ?_
      closed := fun l hopen hsame => ?_
      apart := fun b hb l hl hb' hsame => ?_
      round_lt := hlt
      chained := ?_
      first := by omega }
  · have hle := hlast l hl (hsame.trans hsession)
    omega
  · have hsame' : l.session = j.session := hsame.trans hsession
    have hle := hlast l hopen.mem_grants hsame'
    have hge := hk.last l hopen j hj hsame'.symm
    obtain rfl := hk.eq_of_round hopen.mem_grants hj hsame' (by omega)
    exact hclosed hopen
  · obtain ⟨l', hl', -, hl'', -, hlast'⟩ := hk.taken b (mem_cons_of_mem _ hb)
    obtain rfl : l = l' := hk.eq_of_value hl hl' (xorContext_injective c (hb'.symm.trans hl''))
    have hsame' : l.session = j.session := hsame.trans hsession
    have hle := hlast l hl hsame'
    have hge := hlast' j hj hsame'.symm
    obtain rfl := hk.eq_of_round hl hj hsame' (by omega)
    have hnot := (nodup_cons.mp hk.attached_nodup).1
    exact hnot (mem_map.mpr ⟨b, hb, hb'.trans hstate.symm⟩)
  · obtain ⟨-, f, hf, hfs, hf0, hfirst, hchain⟩ := hk.chained j hj
    refine ⟨f, mem_append_left _ hf, hfs.trans hsession.symm, hf0, hfirst, ?_⟩
    rw [hvalue, hround, hstate, hchain]
    rfl

end Invariant

section Steps

variable {h : Host} {s : System P D} {log : Log P D} {k : ℕ} {r : Request P D}

/-- `Kept` for a system. -/
def System.Kept (h : Host) (s : System P D) (log : Log P D) : Prop :=
  SessionState.Kept h s.tree.contextId s.tree.serverId s.tree.id s.tree.toExpire
    (s.requests.filterMap Request.attached) log

/-- The entries attached to the requests other than the one at a place. -/
def others (s : System P D) (k : ℕ) : List (Entry P D) :=
  (s.requests.eraseIdx k).filterMap Request.attached

theorem filterMap_cons_toList (r : Request P D) (l : List (Request P D)) :
    (r :: l).filterMap Request.attached =
      r.attached.toList ++ l.filterMap Request.attached := by
  cases hr : r.attached with
  | none => rw [filterMap_cons_none hr, Option.toList_none, nil_append]
  | some a => rw [filterMap_cons_some hr, Option.toList_some, singleton_append]

variable {attached : List (Entry P D)} {now : ℤ} {t : Tree P D}

theorem Kept.perm {c : Fin 4 → UInt8} {serverId : UInt8} {id : ℕ} {entries : List (Entry P D)}
    (hkept : SessionState.Kept h c serverId id entries attached log)
    (hperm : attached.Perm attached') : SessionState.Kept h c serverId id entries attached' log :=
  hkept.detach hperm.symm.subset ((hperm.map _).nodup_iff.mp hkept.attached_nodup)

theorem System.Kept.of_place (hkept : s.Kept h log) (hk : s.requests[k]? = some r) :
    SessionState.Kept h s.tree.contextId s.tree.serverId s.tree.id s.tree.toExpire
      (r.attached.toList ++ others s k) log := by
  obtain ⟨hlt, hget⟩ := List.getElem?_eq_some_iff.mp hk
  have hperm := (getElem_cons_eraseIdx_perm hlt).symm.filterMap Request.attached
  rw [hget, filterMap_cons_toList] at hperm
  exact Kept.perm hkept hperm

theorem System.Kept.of_others (hkept : s.Kept h log) (hk : s.requests[k]? = some r) :
    SessionState.Kept h s.tree.contextId s.tree.serverId s.tree.id s.tree.toExpire
      (others s k) log := by
  have hplace := hkept.of_place hk
  refine hplace.detach (subset_append_right _ _) ?_
  exact hplace.attached_nodup.sublist ((sublist_append_right _ _).map _)

theorem System.Kept.update {log' : Log P D} {t' : Tree P D} {r' : Request P D}
    (hk : s.requests[k]? = some r)
    (hkept : SessionState.Kept h t'.contextId t'.serverId t'.id t'.toExpire
      (r'.attached.toList ++ others s k) log') : (s.update k (t', r')).Kept h log' := by
  obtain ⟨hlt, -⟩ := List.getElem?_eq_some_iff.mp hk
  have hperm := (set_perm_cons_eraseIdx hlt r').filterMap Request.attached
  rw [filterMap_cons_toList] at hperm
  exact Kept.perm hkept hperm.symm

theorem mem_kept_iff (hnodup : (t.toExpire.map Entry.state).Nodup) (he : e ∈ t.toExpire) :
    e ∈ kept now t ↔ xorContext t.contextId e.state ∉
      (expired now t).map fun e => xorContext t.contextId e.state := by
  rw [← expired_append_kept now t, map_append, nodup_append] at hnodup
  rw [← expired_append_kept now t, mem_append] at he
  constructor
  · intro hkept hmem
    obtain ⟨e', he', hstate⟩ := mem_map.mp hmem
    exact hnodup.2.2 _ (mem_map_of_mem he') _ (mem_map_of_mem hkept)
      (xorContext_injective _ hstate)
  · intro hnot
    refine he.resolve_left fun hexpired => hnot ?_
    exact mem_map.mpr ⟨e, hexpired, rfl⟩

theorem mem_unlinked_iff (hnodup : (t.toExpire.map Entry.state).Nodup) {octets : List UInt8}
    {e' : Entry P D} (he : e ∈ t.toExpire)
    (hstate : e.state = xorContext t.contextId (toState h octets)) (he' : e' ∈ t.toExpire) :
    e' ∈ (unlinked h t octets).toExpire ↔ e'.state ≠ e.state := by
  obtain ⟨a, left, right, -, ha, hsplit, herase⟩ := exists_of_eraseP he
    (p := fun e => decide (e.state = xorContext t.contextId (toState h octets)))
    (decide_eq_true hstate)
  have hae : a.state = e.state := (of_decide_eq_true ha).trans hstate.symm
  have hunlinked : (unlinked h t octets).toExpire = left ++ right := herase
  rw [hsplit, map_append, map_cons, nodup_middle, ← map_append, nodup_cons] at hnodup
  rw [hunlinked, ← hae]
  constructor
  · intro hmem heq
    exact hnodup.1 (mem_map.mpr ⟨e', hmem, heq⟩)
  intro hne
  rw [hsplit] at he'
  obtain hleft | hright := mem_append.mp he'
  · exact mem_append_left _ hleft
  · obtain rfl | hright := mem_cons.mp hright
    · exact absurd rfl hne
    · exact mem_append_right _ hright

theorem takenValue_cases (h : Host) (t : Tree P D) (r : Request P D) {vp : List UInt8}
    (hvp : r.requestStates.head? = some vp) :
    (stateEntryFindAndUnlink h t vp = (none, t) ∧ takenValue h t r = [] ∧
      ∀ e ∈ t.toExpire, e.state ≠ xorContext t.contextId (toState h vp)) ∨
    ∃ e ∈ t.toExpire, e.state = xorContext t.contextId (toState h vp) ∧
      stateEntryFindAndUnlink h t vp = (some e, unlinked h t vp) ∧
      takenValue h t r = [xorContext t.contextId e.state] := by
  obtain ⟨hnone, hno⟩ | ⟨e, he, hstate, hsome⟩ := stateEntryFindAndUnlink_cases h t vp
  · refine .inl ⟨hnone, ?_, hno⟩
    simp only [takenValue, hvp, hnone, Option.isSome_none, Bool.false_eq_true, if_false]
  · refine .inr ⟨e, he, hstate, hsome, ?_⟩
    simp only [takenValue, hvp, hsome, Option.isSome_some, if_true]
    rw [hstate, xorContext_xorContext]

theorem kept_discard (hkept : s.Kept h log) (hk : s.requests[k]? = some r) :
    (s.update k (frStateDiscard h s.tree r)).Kept h
      (log ++ (takenValue h s.tree r).map .closed) := by
  have hplace := hkept.of_place hk
  unfold frStateDiscard
  split
  · rename_i hvp
    refine System.Kept.update hk ?_
    rw [takenValue, hvp, map_nil, append_nil]
    exact hplace
  rename_i vp hvp
  obtain ⟨hnone, htaken, -⟩ | ⟨e, he, hstate, hsome, htaken⟩ := takenValue_cases h s.tree r hvp
  · rw [hnone, htaken, map_nil, append_nil]
    exact System.Kept.update hk hplace
  rw [hsome, htaken]
  refine System.Kept.update hk (hplace.close eraseP_sublist fun e' he' => ?_)
  rw [mem_singleton, (xorContext_injective _).eq_iff]
  exact mem_unlinked_iff hplace.entries_nodup he hstate he'

theorem kept_restore (hkept : s.Kept h log) (hk : s.requests[k]? = some r) :
    (s.update k (frStateToRequest h s.tree r).2).Kept h
      (log ++ (takenValue h s.tree r).map .closed) := by
  have hplace := hkept.of_place hk
  unfold frStateToRequest
  split
  · rename_i hvp
    rw [takenValue, hvp, map_nil, append_nil]
    refine System.Kept.update hk ?_
    split
    · exact hplace
    · exact hplace
  rename_i vp hvp
  obtain ⟨hnone, htaken, -⟩ | ⟨e, he, hstate, hsome, htaken⟩ := takenValue_cases h s.tree r hvp
  · rw [hnone, htaken, map_nil, append_nil]
    exact System.Kept.update hk hplace
  obtain ⟨i, -, hholds⟩ := hplace.held e he
  have hothers := hkept.of_others hk
  simp only [hsome, hholds.thawed, htaken, Option.isSome_none, Bool.false_eq_true, if_false]
  have htake := hothers.take he eraseP_sublist
    (fun e' he' => mem_unlinked_iff (h := h) hothers.entries_nodup he hstate he')
    (a := { e with ctx := none, data := [], thawed := some r.number }) rfl rfl
  refine System.Kept.update hk ?_
  split
  · exact htake
  · exact htake

/-- The values whose entries a clean-up finds expired. -/
def expiredValues (now : ℤ) (t : Tree P D) : List StateValue :=
  (expired now t).map fun e => xorContext t.contextId e.state

theorem Kept.cleanUp
    (hkept : SessionState.Kept h t.contextId t.serverId t.id t.toExpire attached log) (now : ℤ) :
    SessionState.Kept h t.contextId t.serverId t.id (kept now t) attached
      (log ++ (expiredValues now t).map .closed) :=
  hkept.close (dropWhile_sublist _) fun _ he => mem_kept_iff hkept.entries_nodup he

section Save

variable {now : ℤ} {rand : StateValue} (hreply : r.replyStates = [])

include hreply

/-- A value that the server makes itself is the one that stands in the reply. -/
theorem toState_nextState (t : Tree P D) :
    toState h ((nextState h rand t r).2.2.headD []) = (nextState h rand t r).1 := by
  cases hr : r.attached with
  | none =>
    simp only [nextState, newState, hreply, hr, head?_nil, nil_append, headD_cons, toState_ofFn]
  | some o =>
    simp only [nextState, newState, hreply, hr, head?_nil, nil_append, headD_cons, toState_ofFn]

omit hreply in
theorem roundOf_attached (hkept : s.Kept h log) (hk : s.requests[k]? = some r) {o : Entry P D}
    (hr : r.attached = some o) :
    ∃ j ∈ grants log, o.state = xorContext s.tree.contextId j.value ∧ o.tries = j.round ∧
      roundOf log s.tree r = (j.session, j.round + 1) := by
  have hplace := hkept.of_place hk
  rw [hr] at hplace
  obtain ⟨i, hi, -, hstate, htries, -⟩ := hplace.taken o mem_cons_self
  rw [roundOf, hr]
  dsimp only
  split
  · rename_i hfind
    exact absurd (decide_eq_true hstate.symm) (find?_eq_none.mp hfind i hi)
  rename_i j hfind
  have hj := mem_of_find?_eq_some hfind
  have hjstate := find?_some hfind
  have hvalue := hstate.symm.trans (of_decide_eq_true hjstate).symm
  obtain rfl : i = j := hplace.eq_of_value hi hj (xorContext_injective _ hvalue)
  exact ⟨i, hi, hstate, htries, rfl⟩

/-- What is issued for a request is the next value of its session. -/
theorem next_save (now : ℤ) (hkept : s.Kept h log) (hk : s.requests[k]? = some r)
    (hfresh : r.attached = none → ∀ i ∈ grants log, i.round = 0 →
      i.value ≠ stamp h s.tree.serverId 0 rand)
    (hrounds : ∀ o, r.attached = some o → o.tries + 2 < 256)
    (hi : i.session = (roundOf log s.tree r).1 ∧ i.round = (roundOf log s.tree r).2 ∧
      i.value = (nextState h rand s.tree r).1) :
    Next h s.tree.contextId s.tree.serverId (others s k)
      (log ++ (expiredValues now s.tree).map .closed) i ∧
    (nextState h rand s.tree r).2.1 = i.round ∧ i.session < s.tree.id + 1 := by
  obtain ⟨hsession, hround, hvalue⟩ := hi
  have hplace := (hkept.of_place hk).cleanUp now
  have hothers := (hkept.of_others hk).cleanUp now
  have hgrants := grants_append_closed log (expiredValues now s.tree)
  cases hr : r.attached with
  | none =>
    simp only [roundOf, hr] at hsession hround
    simp only [nextState, newState, hreply, hr, head?_nil] at hvalue ⊢
    refine ⟨next_first hothers hsession hround ?_ ?_, hround.symm, by omega⟩
    · rw [hvalue]
      exact stamp_zero_isFirst _
    · rw [hgrants, hvalue]
      exact hfresh hr
  | some o =>
    obtain ⟨j, hj, hstate, htries, hof⟩ := roundOf_attached hkept hk hr
    rw [hof] at hsession hround
    rw [hr] at hplace
    simp only [nextState, newState, hreply, hr, head?_nil] at hvalue ⊢
    have hlt := hrounds o hr
    have hsessions := hkept.sessions j hj
    refine ⟨next_round hplace (hgrants.symm ▸ hj) hstate hsession hround (by omega) ?_, by omega,
      by omega⟩
    rw [hvalue, hround, htries]

end Save

theorem kept_save {rand : StateValue} (hkept : s.Kept h log) (hk : s.requests[k]? = some r)
    (hidle : r.idle = false) (hassumed : Assumed h log s (.requestToState k now rand)) :
    (s.update k (frRequestToState h now rand s.tree r).2).Kept h
      (log ++ ((expiredValues now s.tree).map .closed ++ issued h log now rand s.tree r)) := by
  obtain ⟨hreply, hfresh, hrounds⟩ := hassumed r hk hidle
  have hothers := (hkept.of_others hk).cleanUp now
  obtain ⟨-, heq⟩ | ⟨-, ⟨-, heq⟩ | ⟨-, heq⟩⟩ := frRequestToState_cases h now rand (t := s.tree) hidle
  · rw [issued, heq, append_nil]
    exact System.Kept.update hk hothers
  · rw [issued, heq, append_nil]
    exact System.Kept.update hk (hothers.mono (Nat.le_succ _))
  rw [issued, heq, ← append_assoc]
  simp only [toState_nextState hreply]
  obtain ⟨hnext, htries, hsession⟩ := next_save hreply now hkept hk hfresh hrounds
    (i := { session := (roundOf log s.tree r).1, round := (roundOf log s.tree r).2
            value := (nextState h rand s.tree r).1, pairs := r.sessionState
            data := r.persistent }) ⟨rfl, rfl, rfl⟩
  refine System.Kept.update hk (hothers.issue ?_ (List.Subset.refl _) hothers.attached_nodup hnext
    (Nat.le_succ _) hsession)
  exact ⟨rfl, htries, rfl, rfl, rfl⟩

theorem kept_step (hkept : s.Kept h log) (step : Step P D) (hassumed : Assumed h log s step) :
    (s.step h step).Kept h (log ++ events h log s step) := by
  cases step with
  | requestToState k now rand =>
    simp only [System.step, events]
    cases hk : s.requests[k]? with
    | none => simpa only [append_nil] using hkept
    | some r =>
      cases hidle : r.idle with
      | true =>
        simp only [hidle, if_true, append_nil, frRequestToState_idle _ _ _ _ _ hidle]
        exact System.Kept.update hk (hkept.of_others hk)
      | false =>
        simp only [hidle, Bool.false_eq_true, if_false]
        exact kept_save hkept hk hidle hassumed
  | stateToRequest k =>
    rw [System.step, events]
    cases hk : s.requests[k]? with
    | none => rwa [append_nil]
    | some r => exact kept_restore hkept hk
  | discard k =>
    rw [System.step, events]
    cases hk : s.requests[k]? with
    | none => rwa [append_nil]
    | some r => exact kept_discard hkept hk
  | arrive r =>
    rw [events, append_nil]
    refine Kept.perm hkept ?_
    simp [System.step]
  | process k r' =>
    rw [System.step, events, append_nil]
    split
    · exact hkept
    · next r hk =>
      have hplace := hkept.of_place hk
      exact System.Kept.update hk hplace
  | finish k =>
    rw [System.step, events, append_nil]
    split
    · exact hkept
    next r hk =>
    split
    · exact hkept.of_others hk
    · exact hkept.of_others hk

/-- Every run keeps the tree, the attached entries and the ledger together. -/
theorem Traced.kept {start : System P D} (hstart : start.Kept h []) (ht : Traced h start s log) :
    s.Kept h log := by
  induction ht with
  | init => exact hstart
  | step step _ hassumed ih => exact kept_step ih step hassumed

end Steps

section Results

variable {h : Host} {s : System P D} {log : Log P D}

theorem System.Kept.latest_iff (hkept : s.Kept h log) (v : StateValue) (pairs : List P)
    (data : List D) :
    Latest log v pairs data ↔
      ∃ i, Open Issue.value log i ∧ i.value = v ∧ i.pairs = pairs ∧ i.data = data := by
  constructor
  · rintro ⟨before, i, after, heq, rfl, hpairs, hdata, hclosed, -⟩
    exact ⟨i, ⟨before, after, heq, hclosed⟩, rfl, hpairs, hdata⟩
  rintro ⟨i, hopen, rfl, hpairs, hdata⟩
  have hlast := hkept.last i hopen
  obtain ⟨before, after, rfl, hclosed⟩ := hopen
  refine ⟨before, i, after, rfl, rfl, hpairs, hdata, hclosed, fun j hj hsession => ?_⟩
  -- a later issue of the session would have a later round
  have hordered := hkept.ordered
  have hafter : j ∈ grants after := mem_grants.mpr hj
  have hmem : j ∈ grants (before ++ .opened i :: after) :=
    mem_grants.mpr (by simp [hj])
  rw [grants_append, pairwise_append] at hordered
  have hlt : i.round < j.round :=
    (pairwise_cons.mp hordered.2.1).1 j hafter hsession.symm
  have hle := hlast j hmem hsession
  omega

theorem System.Kept.values_nodup (hkept : s.Kept h log) : ((grants log).map Issue.value).Nodup := by
  refine pairwise_map.mpr (hkept.ordered.imp_of_mem fun {i j} hi hj hlt hsame => ?_)
  obtain rfl : i = j := hkept.eq_of_value hi hj hsame
  exact (hlt rfl).false

theorem System.Kept.not_latest_of_spent (hkept : s.Kept h log) {v : StateValue}
    (hspent : Spent log v) (pairs : List P) (data : List D) : ¬ Latest log v pairs data := by
  rintro ⟨before, i, after, heq, hvalue, -, -, hclosed, hsession⟩
  obtain ⟨before', j, after', heq', hvalue', hspent⟩ := hspent
  have hnodup := hkept.values_nodup
  subst heq
  obtain ⟨rfl, rfl⟩ := split_unique hnodup heq' (hvalue.trans hvalue'.symm)
  obtain hclosed' | ⟨l, hl, hsame⟩ := hspent
  · exact hclosed hclosed'
  · exact hsession l hl hsame

/-- What `fr_state_to_request` answers to a value. -/
theorem System.Kept.restore_cases (hkept : s.Kept h log) (r : Request P D) {vp : List UInt8}
    (hvp : r.requestStates.head? = some vp) :
    (frStateToRequest h s.tree r = (.unknown, s.tree, r) ∧
      ∀ i, Open Issue.value log i → i.value ≠ toState h vp) ∨
    ∃ i, Open Issue.value log i ∧ i.value = toState h vp ∧
      (frStateToRequest h s.tree r).1 = .restored ∧
      (frStateToRequest h s.tree r).2.2.sessionState = i.pairs ∧
      (frStateToRequest h s.tree r).2.2.persistent = i.data := by
  obtain ⟨hnone, -, hno⟩ | ⟨e, he, hstate, hsome, -⟩ := takenValue_cases h s.tree r hvp
  · refine .inl ⟨by simp only [frStateToRequest, hvp, hnone], fun i hopen hvalue => ?_⟩
    obtain ⟨e, he, hholds⟩ := hkept.linked i hopen
    exact hno e he (hvalue ▸ hholds.state)
  obtain ⟨i, hopen, hholds⟩ := hkept.held e he
  have hvalue : i.value = toState h vp := by
    rw [hholds.value_eq, hstate, xorContext_xorContext]
  refine .inr ⟨i, hopen, hvalue, ?_⟩
  simp only [frStateToRequest, hvp, hsome, hholds.thawed, hholds.ctx, hholds.data,
    Option.isSome_none, Bool.false_eq_true, if_false, Option.getD_some, and_self]

/-- A request restores a session exactly when its `State` stands for the latest value of the session
and that value has not been taken, discarded or found expired by a later `fr_request_to_state`, and
then it gets what was saved when the value was issued. A value that has been used, or that another of
its session has replaced, changes nothing. -/
theorem frStateToRequest_latest {maxSessions : UInt32} {timeout : ℤ} {serverId : UInt8}
    {contextId : Fin 4 → UInt8}
    (ht : Traced h (System.init maxSessions timeout serverId contextId) s log) (r : Request P D)
    {vp : List UInt8} (hvp : r.requestStates.head? = some vp) :
    (∀ pairs data,
      ((frStateToRequest h s.tree r).1 = .restored ∧
        (frStateToRequest h s.tree r).2.2.sessionState = pairs ∧
        (frStateToRequest h s.tree r).2.2.persistent = data) ↔
      Latest log (toState h vp) pairs data) ∧
    ((∀ pairs data, ¬ Latest log (toState h vp) pairs data) →
      frStateToRequest h s.tree r = (.unknown, s.tree, r)) ∧
    (Spent log (toState h vp) → frStateToRequest h s.tree r = (.unknown, s.tree, r)) := by
  have hkept := ht.kept (by exact kept_nil h contextId serverId 0)
  obtain ⟨hunknown, hno⟩ | ⟨i, hopen, hvalue, hrestored, hpairs, hdata⟩ :=
    hkept.restore_cases r hvp
  · refine ⟨fun pairs data => ⟨fun hr => ?_, fun hlatest => ?_⟩, fun _ => hunknown,
      fun _ => hunknown⟩
    · rw [hunknown] at hr
      cases hr.1
    · obtain ⟨i, hopen, hvalue, -⟩ := (hkept.latest_iff _ _ _).mp hlatest
      exact absurd hvalue (hno i hopen)
  · have hlatest : Latest log (toState h vp) i.pairs i.data :=
      (hkept.latest_iff _ _ _).mpr ⟨i, hopen, hvalue, rfl, rfl⟩
    refine ⟨fun pairs data => ⟨?_, fun hother => ?_⟩, fun hnone => ?_, fun hspent => ?_⟩
    · rintro ⟨-, rfl, rfl⟩
      rw [hpairs, hdata]
      exact hlatest
    · obtain ⟨j, hopen', hvalue', rfl, rfl⟩ := (hkept.latest_iff _ _ _).mp hother
      obtain rfl : i = j :=
        hkept.eq_of_value hopen.mem_grants hopen'.mem_grants (hvalue.trans hvalue'.symm)
      exact ⟨hrestored, hpairs, hdata⟩
    · exact absurd hlatest (hnone _ _)
    · exact absurd hlatest (hkept.not_latest_of_spent hspent _ _)

/-- A server that is built from an archive of version 4.0 -/
def sampleHost : Host := ⟨fun _ _ => 0, fun i => [4, 0, 0xff, 0xff].getD i 0⟩

def sampleStart : System ℕ Unit := System.init 8 30 0 fun _ => 0

/-- The first value of a session, all of whose random bytes are this one -/
def firstValue (byte : UInt8) : StateValue := stamp sampleHost 0 0 fun _ => byte

/-- Two sessions are saved, and the first one is restored and saved in a second round. -/
def twoSessions : System ℕ Unit := sampleStart.run sampleHost
  [.arrive (Request.arriving [] [7]), .arrive (Request.arriving [] [8]),
    .requestToState 0 0 fun _ => 0, .requestToState 1 1 fun _ => 1,
    .arrive (Request.arriving [List.ofFn (firstValue 0)] []), .stateToRequest 2,
    .requestToState 2 2 fun _ => 2]

theorem traced_twoSessions : ∃ log, Traced sampleHost sampleStart twoSessions log ∧
    (grants log).map (fun i => (i.session, i.round)) = [(0, 0), (1, 0), (0, 1)] := by
  have hinit : Traced sampleHost sampleStart sampleStart [] := .init
  have harrive := (hinit.step (.arrive (Request.arriving [] [7])) trivial).step
    (.arrive (Request.arriving [] [8])) trivial
  have hfirst := harrive.step (.requestToState 0 0 fun _ => 0) (by
    rintro r hr -
    cases hr
    exact ⟨rfl, fun _ => nofun, nofun⟩)
  have hsecond := hfirst.step (.requestToState 1 1 fun _ => 1) (by
    rintro r hr -
    cases hr
    exact ⟨rfl, fun _ => by decide +kernel, nofun⟩)
  have hrestore := (hsecond.step (.arrive (Request.arriving [List.ofFn (firstValue 0)] []))
    trivial).step (.stateToRequest 2) trivial
  have hround := hrestore.step (.requestToState 2 2 fun _ => 2) (by
    rintro r hr -
    cases hr
    refine ⟨rfl, nofun, fun o ho => ?_⟩
    cases ho
    decide)
  exact ⟨_, hround, by decide +kernel⟩

theorem frStateToRequest_latest_two : ∃ log, Traced sampleHost sampleStart twoSessions log ∧
    Latest log (stamp sampleHost 0 1 (firstValue 0)) [7] [] ∧ Latest log (firstValue 1) [8] [] ∧
    ∀ pairs data, ¬Latest log (firstValue 0) pairs data := by
  obtain ⟨log, ht, -⟩ := traced_twoSessions
  have hlatest : ∀ v pairs data, _ ↔ Latest log v pairs data := fun v pairs data =>
    toState_ofFn sampleHost v ▸ (frStateToRequest_latest ht
      (Request.arriving [List.ofFn v] []) rfl).1 pairs data
  refine ⟨log, ht, (hlatest _ _ _).mp (by decide +kernel), (hlatest _ _ _).mp (by decide +kernel),
    fun pairs data h => ?_⟩
  exact absurd ((hlatest _ _ _).mpr h).1 (by decide +kernel)

/-- Whatever the sessions do, no value is issued twice, although the values after the first one of a
session are not drawn, and a session has one value at most that can still be used. -/
theorem frRequestToState_distinct {maxSessions : UInt32} {timeout : ℤ} {serverId : UInt8}
    {contextId : Fin 4 → UInt8}
    (ht : Traced h (System.init maxSessions timeout serverId contextId) s log) :
    ((grants log).map Issue.value).Nodup ∧ ∀ i j, Open Issue.value log i → Open Issue.value log j →
      i.session = j.session → i = j := by
  have hkept := ht.kept (by exact kept_nil h contextId serverId 0)
  refine ⟨hkept.values_nodup, fun i j hi hj hsession => ?_⟩
  have hle := hkept.last i hi j hj.mem_grants hsession.symm
  have hge := hkept.last j hj i hi.mem_grants hsession
  exact hkept.eq_of_round hi.mem_grants hj.mem_grants hsession (Nat.le_antisymm hge hle)

theorem frRequestToState_distinct_two : ∃ log, Traced sampleHost sampleStart twoSessions log ∧
    ((grants log).map Issue.value).length = 3 ∧ ((grants log).map Issue.value).Nodup := by
  obtain ⟨log, ht, hgrants⟩ := traced_twoSessions
  refine ⟨log, ht, ?_, (frRequestToState_distinct ht).1⟩
  simpa using congrArg length hgrants

/-- A session is saved, and a call at the time 1000 has nothing to save. -/
def onceSaved : System ℕ Unit := sampleStart.run sampleHost
  [.arrive (Request.arriving [] [7]), .requestToState 0 0 fun _ => 0,
    .arrive (Request.arriving [] []), .requestToState 1 1000 fun _ => 0]

/-- Fifteen bytes are filled up with a zero, and so restore a session although no such value was ever
issued. And a value restores its session although its time is over, as long as no call has cleaned
up. -/
theorem frStateToRequest_padded :
    let value := List.ofFn (firstValue 0)
    ∃ log, Traced sampleHost sampleStart onceSaved log ∧
      ((frStateToRequest sampleHost onceSaved.tree (Request.arriving [value.take 15] [])).1 =
        .restored ∧ ∀ i ∈ grants log, List.ofFn i.value ≠ value.take 15) ∧
      (frStateToRequest sampleHost onceSaved.tree (Request.arriving [value] [])).1 = .restored ∧
      onceSaved.tree.toExpire.map Entry.cleanup = [30] := by
  have hinit : Traced sampleHost sampleStart sampleStart [] := .init
  have hsave := (hinit.step (.arrive (Request.arriving [] [7])) trivial).step
    (.requestToState 0 0 fun _ => 0) (by
      rintro r hr -
      cases hr
      exact ⟨rfl, fun _ => nofun, nofun⟩)
  have hidle := (hsave.step (.arrive (Request.arriving [] [])) trivial).step
    (.requestToState 1 1000 fun _ => 0) (by
      rintro r hr hidle
      cases hr
      cases hidle)
  refine ⟨_, hidle, ⟨by decide +kernel, fun i _ heq => ?_⟩, by decide +kernel, rfl⟩
  have hlength := congrArg List.length heq
  rw [length_ofFn] at hlength
  exact absurd hlength (by decide)

end Results

end FreeRadius.SessionState
