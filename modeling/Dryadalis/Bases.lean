import Dryadalis.GuestCalls

/-!
# The FS and GS bases of the guest

The engine and the guest share one processor, so the engine switches the FS and GS
bases back and forth: `_dispatcher` saves those of the guest and installs those of
the host, a system call hook does the reverse around its call, and `continue_exec`
installs the guest's again.  The guest's bases are cached in `instrumented_fs` and
`instrumented_gs`, which `hook_arch_prctl` also writes.

`Tracks` is the relation between two engine states that carries the argument: the
host's bases are untouched, no callback has run, and the cached bases have moved
by exactly the requests that were made for the guest.  Every function between the
two switches of `_dispatcher` follows it, so what is in the cache at the end is
what the requests established.  These are the calls that the guest has stopped at
(`dispatcher_calls`), so it is what the guest's registers established.

`GuestBases` is a run: the start, and then any number of turns, each a native
change of the bases, the registers and the memory followed by a dispatch.
-/

namespace Dryadalis

open ByteMem Exec

/-! ## What the guest has established -/

/-- The bases after a request that was made for the guest. -/
def afterRequest (r : Request) (b : Word × Word) : Word × Word :=
  if r.nr = NR_arch_prctl ∧ isError r.rax = false then
    if (r.args.getD 0 0).setWidth 32 = ARCH_SET_FS then (r.args.getD 1 0, b.2)
    else if (r.args.getD 0 0).setWidth 32 = ARCH_SET_GS then (b.1, r.args.getD 1 0)
    else b
  else b

/-- The bases after several requests, newest first. -/
def afterRequests (rs : List Request) (b : Word × Word) : Word × Word := rs.foldr afterRequest b

/-- The bases after a system call of the guest, from its registers. -/
def afterCall (c : Sys × StateRtime) (b : Word × Word) : Word × Word :=
  if c.1 = .archPrctl then
    if c.2.rdi.setWidth 32 = ARCH_SET_FS then (c.2.rsi, b.2)
    else if c.2.rdi.setWidth 32 = ARCH_SET_GS then (b.1, c.2.rsi)
    else b
  else b

/-- The bases after several system calls, newest first. -/
def afterCalls (cs : List (Sys × StateRtime)) (b : Word × Word) : Word × Word :=
  cs.foldr afterCall b

/-- The bases that were active at the callbacks of a trace. -/
def callbacks (t : List Event) : List (Word × Word) :=
  t.filterMap fun
    | .callback fs gs => some (fs, gs)
    | _ => none

/-- The cached bases of the guest. -/
def Engine.cached (e : Engine) : Word × Word := (e.instrumentedFs, e.instrumentedGs)

/-- The saved bases of the host. -/
def Engine.host (e : Engine) : Word × Word := (e.hostFs, e.hostGs)

/-- The bases of the processor. -/
def Engine.bases (e : Engine) : Word × Word := (e.fs, e.gs)

/-- A request that sets a base has not been refused. -/
def Request.Accepted (r : Request) : Prop :=
  r.nr = NR_arch_prctl → (r.args.getD 0 0).setWidth 32 = ARCH_SET_FS ∨
    (r.args.getD 0 0).setWidth 32 = ARCH_SET_GS → isError r.rax = false

theorem intArg_setWidth (v : Word) : (intArg v).setWidth 32 = v.setWidth 32 := by
  apply BitVec.eq_of_toNat_eq
  simp only [intArg, BitVec.toNat_setWidth]
  omega

/-- The request of a call moves the bases as the registers of the guest say. -/
theorem afterRequest_eq_afterCall {r : Request} {c : Sys × StateRtime} (hr : r.Accepted)
    (hask : r.ask = (c.1.asked, c.1.passes c.2)) (b : Word × Word) :
    afterRequest r b = afterCall c b := by
  obtain ⟨s, st⟩ := c
  obtain ⟨hnr, hargs⟩ := Prod.mk.inj hask
  simp only at hnr hargs
  by_cases hs : s = .archPrctl
  · subst hs
    have hnr' : r.nr = NR_arch_prctl := hnr
    have hcode : (r.args.getD 0 0).setWidth 32 = st.rdi.setWidth 32 := by
      rw [hargs]
      exact intArg_setWidth _
    have haddr : r.args.getD 1 0 = st.rsi := by
      rw [hargs]
      rfl
    have hok := hr hnr'
    rw [hcode] at hok
    rw [afterRequest, afterCall, if_pos rfl, hcode, haddr]
    by_cases hset : st.rdi.setWidth 32 = ARCH_SET_FS ∨ st.rdi.setWidth 32 = ARCH_SET_GS
    · rw [if_pos ⟨hnr', hok hset⟩]
    · obtain ⟨hfs, hgs⟩ := not_or.mp hset
      simp only [if_neg hfs, if_neg hgs, ite_self]
  · have hother : r.nr ≠ NR_arch_prctl := by
      rw [hnr]
      cases s <;> first | exact absurd rfl hs | decide
    rw [afterRequest, if_neg fun h => hother h.1, afterCall, if_neg hs]

/-- The requests of the calls move the bases as the calls do. -/
theorem afterRequests_eq_afterCalls {rs : List Request} {cs : List (Sys × StateRtime)}
    (hrs : ∀ r ∈ rs, r.Accepted) (hask : rs.map Request.ask = asks cs) (b : Word × Word) :
    afterRequests rs b = afterCalls cs b := by
  induction cs generalizing rs with
  | nil =>
    obtain rfl := List.map_eq_nil_iff.mp hask
    rfl
  | cons c cs ih =>
    by_cases hf : c.1.Forwards c.2
    · rw [asks, List.filter_cons_of_pos (by simpa using hf), List.map_cons] at hask
      obtain ⟨r, rs, rfl, hr, hrest⟩ := List.map_eq_cons_iff.mp hask
      rw [afterRequests, afterCalls, List.foldr_cons, List.foldr_cons,
        afterRequest_eq_afterCall (hrs r List.mem_cons_self) hr]
      exact congrArg _ (ih (fun r' hr' => hrs r' (List.mem_cons_of_mem _ hr')) hrest)
    · rw [asks, List.filter_cons_of_neg (by simpa using hf)] at hask
      have hs : c.1 ≠ .archPrctl := by
        intro hs
        refine hf ⟨?_, ?_, ?_, fun h => ?_⟩ <;> rw [hs] at * <;> first | decide | cases h
      rw [afterCalls, List.foldr_cons, afterCall, if_neg hs]
      exact ih hrs hask

/-! ## Tracking -/

/-- From `e` to `e'` the host's bases are untouched, no callback has run, and the
cached bases have moved by the requests that were made. -/
structure Tracks (e e' : Engine) : Prop where
  host : e'.host = e.host
  callbacks : callbacks e'.trace = callbacks e.trace
  guest : ∃ rs, e'.requests = rs ++ e.requests ∧ e'.cached = afterRequests rs e.cached ∧
    ∀ r ∈ rs, r.Accepted

/-- What `Tracks` looks at. -/
def Engine.view (e : Engine) : (Word × Word) × List (Word × Word) × List Request × (Word × Word) :=
  (e.host, Dryadalis.callbacks e.trace, e.requests, e.cached)

theorem Tracks.of_view {e e' : Engine} (h : e'.view = e.view) : Tracks e e' := by
  simp only [Engine.view, Prod.mk.injEq] at h
  obtain ⟨hhost, hcall, hreq, hcached⟩ := h
  exact ⟨hhost, hcall, [], hreq, hcached, fun r hr => absurd hr List.not_mem_nil⟩

instance : IsPreorder Engine Tracks where
  refl _ := .of_view rfl
  trans e e₁ e₂ h h' := by
    obtain ⟨rs, hreq, hcached, hrs⟩ := h.guest
    obtain ⟨rs', hreq', hcached', hrs'⟩ := h'.guest
    refine ⟨h'.host.trans h.host, h'.callbacks.trans h.callbacks, rs' ++ rs, ?_, ?_, ?_⟩
    · rw [hreq', hreq, List.append_assoc]
    · rw [hcached', hcached, afterRequests, afterRequests, afterRequests, List.foldr_append]
    · exact fun r hr => (List.mem_append.mp hr).elim (hrs' r) (hrs r)

/-- Nothing that `Tracks` looks at has changed, and neither have the bases of the
processor. -/
def Quiet : Engine → Engine → Prop := Kept fun e => (e.view, e.bases)

instance : IsPreorder Engine Quiet := inferInstanceAs (IsPreorder Engine (Kept _))

theorem Quiet.tracks {e e' : Engine} (h : Quiet e e') : Tracks e e' :=
  .of_view (congrArg Prod.fst h)

theorem tracks {α : Type} {x : Eng α} (h : Follows Quiet x) : Follows Tracks x :=
  h.mono Quiet.tracks

/-! ## The functions between the two switches -/

section Follow

variable {k : Kernel} {cs : Capstone}

theorem quiet_modify {g : Engine → Engine}
    (h : ∀ e, ((g e).view, (g e).bases) = (e.view, e.bases)) :
    Follows Quiet (modify g : Eng Unit) :=
  Follows.modify h

/-- Every event but a callback is quiet. -/
theorem quiet_emit {mk : Word → Word → Event} (h : ∀ fs gs, callbacks [mk fs gs] = []) :
    Follows Quiet (emit mk) := by
  refine quiet_modify fun e => ?_
  have hcall : callbacks (mk e.fs e.gs :: e.trace) = callbacks e.trace := by
    rw [← List.singleton_append, callbacks, List.filterMap_append]
    exact congrArg (· ++ callbacks e.trace) (h e.fs e.gs)
  simp only [Engine.view, hcall]
  rfl

theorem quiet_output : Follows Quiet (emit .output) := quiet_emit fun _ _ => rfl

theorem quiet_blind : PlaceBlind fun e => (e.view, e.bases) where
  space _ _ := rfl
  hook _ which _ := by cases which <;> rfl
  output _ := rfl
  dtor _ := rfl
  length _ _ := rfl
  currHook _ _ := rfl
  rip _ _ := rfl

theorem quiet_opcodesCflow (a : Word) : Follows Quiet (opcodesCflow k cs a true) :=
  quiet_blind.opcodesCflowAux (fun _ _ => rfl) _ a true

theorem quiet_fatalDump {α : Type} : Follows Quiet (fatalDump : Eng α) := quiet_blind.fatalDump

theorem follows_setFsGs (fs gs : Word) : Follows Tracks (setFsGs k fs gs) := by
  intro e
  obtain ⟨r, e', hset, -, fs', gs', he'⟩ := setFsGs_total k fs gs e
  rw [hset, he']
  exact .of_view rfl

/-! ### The hooks -/

theorem quiet_setRax (v : Word) : Follows Quiet (setRax v) := quiet_modify fun _ => rfl

/-- A call other than `arch_prctl` does not move the bases of the guest. -/
theorem follows_syscall {nr : Nat} {args : List Word} (h : nr ≠ NR_arch_prctl) :
    Follows Tracks (syscall k nr args) := by
  intro e
  rw [syscall, kernelCall, bind_apply, bind_of_ok (get_apply e), if_neg h]
  refine ⟨rfl, rfl, [⟨nr, args, _⟩], rfl, ?_, ?_⟩
  · rw [afterRequests, List.foldr_cons, List.foldr_nil, afterRequest, if_neg (fun hr => h hr.1)]
    rfl
  · intro r hr
    obtain rfl := List.mem_singleton.mp hr
    exact fun hnr => absurd hnr h

theorem follows_archPrctlBack (code : BitVec 32) : Follows Tracks (archPrctlBack k code) := by
  unfold archPrctlBack
  refine .bind .get fun e => .ite ?_ (.pure _)
  exact .bind (follows_setFsGs _ _) fun _ => .ite (.throw _) (.pure _)

theorem archPrctlDone_view (code : BitVec 32) (addr : Word) (e : Engine) :
    (archPrctlDone code addr e).view = e.view := by
  unfold archPrctlDone
  split_ifs <;> rfl

/-- The switch writes the cached base that the code names. -/
theorem archPrctlSwitch_spec (code : BitVec 32) (addr : Word) (e : Engine) :
    ∃ e', archPrctlSwitch code addr e = .ok () e' ∧ e'.requests = e.requests ∧
      e'.host = e.host ∧ callbacks e'.trace = callbacks e.trace ∧
      e'.cached =
        if code = ARCH_SET_FS then (addr, e.cached.2)
        else if code = ARCH_SET_GS then (e.cached.1, addr)
        else e.cached := by
  unfold archPrctlSwitch
  split_ifs <;> exact ⟨_, rfl, rfl, rfl, rfl, rfl⟩

/-- The call of `arch_prctl` makes one request and does not touch the cache. -/
theorem archPrctl_request (args : List Word) (e : Engine) :
    ∃ raw e', syscall k Sys.archPrctl.nr args e = .ok (libcRet raw) e' ∧
      raw = k.archPrctl ((args.getD 0 0).setWidth 32) (args.getD 1 0) ∧
      e'.requests = ⟨NR_arch_prctl, args, raw⟩ :: e.requests ∧
      e'.host = e.host ∧ callbacks e'.trace = callbacks e.trace ∧ e'.cached = e.cached := by
  refine ⟨_, _, rfl, rfl, ?_⟩
  simp only
  split
  · exact ⟨rfl, rfl, rfl, rfl⟩
  · have hview := archPrctlDone_view ((args.getD 0 0).setWidth 32) (args.getD 1 0) e
    simp only [Engine.view, Prod.mk.injEq] at hview
    obtain ⟨hhost, hcall, hreq, hcached⟩ := hview
    exact ⟨congrArg _ hreq, hhost, hcall, hcached⟩

end Follow

section SetsBases

variable {k : Kernel} {cs : Capstone} (hk : k.SetsBases)

include hk

/-- `hook_arch_prctl` moves the cached bases as the kernel moves the real ones. -/
theorem follows_hookArchPrctl : Follows Tracks (hookArchPrctl k) := by
  intro e
  obtain ⟨e₁, hswitch, hreq₁, hhost₁, hcall₁, hcached₁⟩ :=
    archPrctlSwitch_spec (e.state.rdi.setWidth 32) e.state.rsi e
  obtain ⟨raw, e₂, hsys, hraw, hreq₂, hhost₂, hcall₂, hcached₂⟩ :=
    archPrctl_request (k := k) [intArg e.state.rdi, e.state.rsi] e₁
  have htail : Follows Tracks
      (do archPrctlBack k (e.state.rdi.setWidth 32); setRax (libcRet raw); emit .output; return 0 :
        Eng Word) :=
    .bind (follows_archPrctlBack _) fun _ => .bind (tracks (quiet_setRax _)) fun _ =>
      .bind (tracks quiet_output) fun _ => .pure _
  have hcode : (List.getD [intArg e.state.rdi, e.state.rsi] 0 0).setWidth 32 =
      e.state.rdi.setWidth 32 := intArg_setWidth _
  rw [hcode] at hraw
  -- The two codes that move a base are the ones that the kernel always accepts.
  have hok : e.state.rdi.setWidth 32 = ARCH_SET_FS ∨ e.state.rdi.setWidth 32 = ARCH_SET_GS →
      isError raw = false := by
    rintro (hset | hset)
    · rw [hraw, hset, hk.setFs]
      rfl
    · rw [hraw, hset, hk.setGs]
      rfl
  have hcalled : Tracks e e₂ := by
    refine ⟨hhost₂.trans hhost₁, hcall₂.trans hcall₁,
      [⟨NR_arch_prctl, [intArg e.state.rdi, e.state.rsi], raw⟩], ?_, ?_, ?_⟩
    · rw [hreq₂, hreq₁]
      rfl
    · rw [hcached₂, hcached₁, afterRequests, List.foldr_cons, List.foldr_nil, afterRequest]
      simp only [hcode, true_and]
      by_cases hfs : e.state.rdi.setWidth 32 = ARCH_SET_FS
      · simp [hfs, hok (Or.inl hfs)]
      · by_cases hgs : e.state.rdi.setWidth 32 = ARCH_SET_GS
        · simp [hgs, hok (Or.inr hgs)]
        · simp [hfs, hgs]
    · intro r hr hnr hset
      obtain rfl := List.mem_singleton.mp hr
      rw [hcode] at hset
      exact hok hset
  rw [hookArchPrctl, bind_of_ok (get_apply e), bind_of_ok hswitch, bind_of_ok hsys]
  exact trans_of Tracks hcalled (htail e₂)

theorem hookSteps : HookSteps k Tracks where
  output := tracks quiet_output
  dtor := tracks (quiet_modify fun _ => rfl)
  setFsGs := follows_setFsGs
  syscall _ := follows_syscall
  setRax v := tracks (quiet_setRax v)
  space _ := tracks (quiet_modify fun _ => rfl)
  vbrk _ := tracks (quiet_modify fun _ => rfl)
  archPrctl := follows_hookArchPrctl hk

/-! ### Branch emulation -/

omit hk in
theorem evalSteps : EvalSteps Tracks where
  fatal := tracks quiet_fatalDump
  notFound := tracks (quiet_emit fun _ _ => rfl)
  operand := tracks (quiet_emit fun _ _ => rfl)
  unhandled _ := tracks (quiet_emit fun _ _ => rfl)
  push _ := tracks (quiet_modify fun _ => rfl)
  pop := tracks (quiet_modify fun _ => rfl)

theorem follows_evalSyscall (i : Insn) (a : Word) : Follows Tracks (evalSyscall k i a) :=
  (hookSteps hk).evalSyscall (fun _ => tracks (quiet_emit fun _ _ => rfl))
    (tracks (quiet_modify fun _ => rfl)) i a

theorem follows_getBblBase : Follows Tracks (getBblBase k cs) := by
  have htarget : ∀ a, Follows Tracks (evalTarget k cs a) := by
    intro a
    unfold evalTarget
    refine .bind (tracks (quiet_blind.readMem _ _ _)) fun r => ?_
    obtain ⟨ret, buf⟩ := r
    refine .ite (.bind (tracks quiet_output) fun _ => .pure _) ?_
    split
    · exact .throw _
    · exact evalSteps.evalGroups fun _ => follows_evalSyscall hk _ _
  unfold getBblBase brEmulation
  refine .bind .get fun e => .bind (htarget _) fun _ => ?_
  exact .when (tracks quiet_fatalDump) fun _ => .pure _

/-! ### The hooks around a block -/

theorem follows_moveHooks (cs : Capstone) :
    Follows Tracks (moveHooks k cs (getBblBase k cs) fun base => opcodesCflow k cs base true) := by
  unfold moveHooks
  refine .bind (tracks quiet_blind.takeDownHooks) fun _ => .bind (follows_getBblBase hk) fun _ => ?_
  exact tracks (quiet_blind.instrumentAt quiet_opcodesCflow _)

/-! ## One dispatch -/

omit hk in
/-- The callback runs with the bases that are active, and changes nothing else that is
tracked. -/
theorem userCallback_spec (e : Engine) :
    ∃ e', userCallback e = .ok () e' ∧ e'.host = e.host ∧ e'.requests = e.requests ∧
      e'.cached = e.cached ∧
      ∀ b ∈ callbacks e'.trace, b ∈ callbacks e.trace ∨ b = e.bases := by
  rw [userCallback, bind_of_ok (get_apply e)]
  split
  · refine ⟨_, rfl, rfl, rfl, rfl, ?_⟩
    intro b hb
    rcases List.mem_cons.mp hb with rfl | hb
    · exact Or.inr rfl
    · exact Or.inl hb
  · exact ⟨e, rfl, rfl, rfl, rfl, fun b hb => Or.inl hb⟩

/-- A dispatch from any state.  Every callback in it ran with the host's bases, and
if it gets to `continue_exec`, that installs the bases the guest came with, moved by
the requests that were made. -/
theorem dispatcher_turn (cs : Capstone) (e : Engine) :
    (final (dispatcher k cs e)).host = e.host ∧
      (∀ b ∈ callbacks (final (dispatcher k cs e)).trace, b ∈ callbacks e.trace ∨ b = e.host) ∧
      ∀ e', dispatcher k cs e = .ok () e' →
        ∃ rs t, e'.requests = rs ++ e.requests ∧ e'.bases = afterRequests rs e.bases ∧
          (∀ r ∈ rs, r.Accepted) ∧ e'.trace = .resume e'.fs e'.gs :: t := by
  obtain ⟨e₂, hcallback, hhost, hreq, hcached, hcalls⟩ := userCallback_spec
    { e with
      instrumentedFs := e.fs
      instrumentedGs := e.gs
      fs := e.hostFs
      gs := e.hostGs }
  have hmove := follows_moveHooks hk cs e₂
  rw [dispatcher, dispatcherWith, bind_of_ok (enterHost_eq hk e), bind_of_ok hcallback]
  cases hrun : moveHooks k cs (getBblBase k cs) (fun base => opcodesCflow k cs base true) e₂ with
  | error h e₃ =>
    rw [hrun] at hmove
    rw [bind_of_error hrun]
    refine ⟨hmove.host.trans hhost, fun b hb => hcalls b ?_, fun e' h' => by cases h'⟩
    rw [← hmove.callbacks]
    exact hb
  | ok u e₃ =>
    rw [hrun] at hmove
    rw [bind_of_ok hrun, continueExec_eq hk]
    refine ⟨hmove.host.trans hhost, fun b hb => hcalls b ?_, ?_⟩
    · rw [← hmove.callbacks]
      exact hb
    · rintro e' h'
      cases h'
      obtain ⟨rs, hreq', hcached', hrs⟩ := hmove.guest
      refine ⟨rs, e₃.trace, ?_, ?_, hrs, rfl⟩
      · exact hreq'.trans (congrArg _ hreq)
      · rw [hcached] at hcached'
        exact hcached'

end SetsBases

/-! ## Runs -/

/-- What the guest does natively inside a block: any registers, any memory, and
possibly new bases. -/
structure NativeChange where
  state : StateRtime
  space : Space
  fs : Option Word
  gs : Option Word

def NativeChange.apply (c : NativeChange) (e : Engine) : Engine :=
  { e with state := c.state, space := c.space, fs := c.fs.getD e.fs, gs := c.gs.getD e.gs }

/-- The engine states at the end of a dispatch, from the start of an engine `e₀` on,
with the bases that the guest last established: natively, or with the system call that it has
stopped at. -/
inductive GuestBases (k : Kernel) (cs : Capstone) (entry : Word) (e₀ : Engine) :
    Engine → Word × Word → Prop where
  | start {e} (run : instrument k cs entry e₀ = .ok () e) : GuestBases k cs entry e₀ e e₀.bases
  | turn {e b e₁ e'} {c : NativeChange} (prev : GuestBases k cs entry e₀ e b)
      (enter : (do enterHost k; userCallback; takeDownHooks k : Eng Unit) (c.apply e) = .ok () e₁)
      (run : dispatcher k cs (c.apply e) = .ok () e') :
      GuestBases k cs entry e₀ e' (afterCalls (e₁.calls cs) (c.fs.getD b.1, c.gs.getD b.2))

section Runs

variable {k : Kernel} {cs : Capstone} {entry : Word} {e₀ e : Engine} {b : Word × Word}

/-- `instrument` saves the bases that are in force, and leaves them in force. -/
theorem instrument_spec (hk : k.SetsBases) (hcache : e₀.instrumentedFs = 0)
    (htrace : e₀.trace = []) (run : instrument k cs entry e₀ = .ok () e) :
    e.bases = e₀.bases ∧ e.host = e₀.bases ∧ callbacks e.trace = [] := by
  rw [instrument, bind_of_ok (modify_apply _ e₀)] at run
  obtain ⟨r, e₁, hreq, hrest⟩ := exists_of_bind_ok run
  have hquiet := (quiet_blind.instrumentRequest quiet_opcodesCflow entry).of_ok hreq
  simp only [Kept, Engine.view, Engine.bases, Engine.cached, Engine.host, Prod.mk.injEq]
    at hquiet
  obtain ⟨⟨-, hcalls, -, hcached, -⟩, hfs, hgs⟩ := hquiet
  split at hrest
  · cases hrest
  · simp only at hrest
    rw [bind_of_ok (modify_apply _ e₁), leaveHost_eq hk] at hrest
    · cases hrest
      refine ⟨congrArg₂ Prod.mk hfs hgs, congrArg₂ Prod.mk hfs hgs, ?_⟩
      show callbacks e₁.trace = []
      rw [hcalls, htrace]
      rfl
    · exact hcached.trans hcache

/-- `instrument` has protected the page of the dump hook. -/
theorem instrument_opens (run : instrument k cs entry e₀ = .ok () e) : k.Opens e.currHook 0 := by
  rw [instrument, bind_of_ok (modify_apply _ e₀)] at run
  obtain ⟨r, e₁, hreq, hrest⟩ := exists_of_bind_ok run
  obtain ⟨off, e₂, -, -, -, -, hopen⟩ := instrumentRequest_place cs hreq
  have hleave : Follows (Kept fun e : Engine => e.currHook) (leaveHost k) := by
    have hset : ∀ fs gs, Follows (Kept fun e : Engine => e.currHook) (setFsGs k fs gs) := by
      intro fs gs e
      obtain ⟨r, e', hrun, -, fs', gs', he'⟩ := setFsGs_total k fs gs e
      rw [hrun, he']
      rfl
    have hsave : Follows (Kept fun e : Engine => e.currHook) (saveFsGs k) := by
      unfold saveFsGs
      exact .bind .get fun _ => .ite (.pure _) (.pure _)
    unfold leaveHost
    refine .bind hsave fun r => ?_
    split
    · exact fun _ => rfl
    · refine .bind (.modify fun _ => rfl) fun _ => .bind .get fun e => .ite ?_ (.pure _)
      exact .bind (hset _ _) fun _ => .ite (fun _ => rfl) (.pure _)
  have hkept : e.currHook = e₁.currHook := by
    refine Follows.of_ok (R := Kept fun e : Engine => e.currHook) ?_ hrest
    refine .when (fun _ => rfl) fun _ => .bind (.modify fun _ => rfl) fun _ => hleave
  rw [hkept]
  exact hopen

theorem GuestBases.opens (run : GuestBases k cs entry e₀ e b) : k.Opens e.currHook 0 := by
  induction run with
  | start run => exact instrument_opens run
  | @turn e b e₁ e' c prev enter run ih =>
    obtain ⟨-, -, -, hopen⟩ := (dispatcher_calls cs (e := c.apply e) ih).1 e' run
    exact hopen

/-- What a dispatch asks of the kernel moves the bases as the guest's system call says. -/
theorem dispatcher_established (hk : k.SetsBases) (hopen : k.Opens e.currHook 0) {e' : Engine}
    (run : dispatcher k cs e = .ok () e') :
    ∃ e₁ rs t, (do enterHost k; userCallback; takeDownHooks k : Eng Unit) e = .ok () e₁ ∧
      e'.requests = rs ++ e.requests ∧ e'.bases = afterRequests rs e.bases ∧
      e'.bases = afterCalls (e₁.calls cs) e.bases ∧ e'.trace = .resume e'.fs e'.gs :: t := by
  obtain ⟨rs, t, hreq, hbases, hrs, hresume⟩ := (dispatcher_turn hk cs e).2.2 e' run
  obtain ⟨e₁, henter, ⟨new, hnew, hask⟩, -⟩ := (dispatcher_calls cs hopen).1 e' run
  obtain rfl : new = rs := List.append_cancel_right (hnew.symm.trans hreq)
  refine ⟨e₁, new, t, henter, hreq, hbases, ?_, hresume⟩
  rw [hbases, afterRequests_eq_afterCalls hrs hask]

/-- The invariant of a run: the processor has the bases that the guest last
established, the host's are the ones in force at the start, and every callback ran
with those. -/
theorem GuestBases.invariant (hk : k.SetsBases) (hcache : e₀.instrumentedFs = 0)
    (htrace : e₀.trace = []) (run : GuestBases k cs entry e₀ e b) :
    e.bases = b ∧ e.host = e₀.bases ∧ ∀ c ∈ callbacks e.trace, c = e.host := by
  induction run with
  | start run =>
    obtain ⟨hbases, hhost, hcalls⟩ := instrument_spec hk hcache htrace run
    refine ⟨hbases, hhost, fun c hc => ?_⟩
    rw [hcalls] at hc
    cases hc
  | @turn e b e₁ e' c prev enter run ih =>
    obtain ⟨hbases, hhost, hcalls⟩ := ih
    obtain ⟨hhost', hcalls', -⟩ := dispatcher_turn hk cs (c.apply e)
    obtain ⟨e₂, rs, t, henter, -, -, hbases', -⟩ :=
      dispatcher_established hk (e := c.apply e) prev.opens run
    obtain rfl : e₂ = e₁ := (EStateM.Result.ok.inj (henter.symm.trans enter)).2
    rw [run] at hhost' hcalls'
    refine ⟨?_, hhost'.trans hhost, fun d hd => ?_⟩
    · rw [hbases', ← hbases]
      rfl
    · rcases hcalls' d hd with hd | rfl
      · exact (hcalls d hd).trans hhost'.symm
      · exact hhost'.symm

/-- In every run, at every dispatch and for every native change before it:
`continue_exec` installs exactly the bases that the guest last established, from its
registers where it has stopped at a system call, and the requests that were made say the
same.  Every callback has run with the saved bases of the host, which are the ones that
were in force at the start. -/
theorem dispatcher_bases (hk : k.SetsBases) (hcache : e₀.instrumentedFs = 0)
    (htrace : e₀.trace = []) (run : GuestBases k cs entry e₀ e b) (c : NativeChange) :
    (∀ e', dispatcher k cs (c.apply e) = .ok () e' →
      ∃ e₁ rs t fs gs,
        (do enterHost k; userCallback; takeDownHooks k : Eng Unit) (c.apply e) = .ok () e₁ ∧
        (fs, gs) = afterCalls (e₁.calls cs) (c.fs.getD b.1, c.gs.getD b.2) ∧
        e'.requests = rs ++ e.requests ∧
        (fs, gs) = afterRequests rs (c.fs.getD b.1, c.gs.getD b.2) ∧
        e'.trace = .resume fs gs :: t ∧ e'.bases = (fs, gs)) ∧
    ∀ fs gs, .callback fs gs ∈ (final (dispatcher k cs (c.apply e))).trace →
      (fs, gs) = e₀.bases ∧ (fs, gs) = (c.apply e).host := by
  obtain ⟨hbases, hhost, hcalls⟩ := run.invariant hk hcache htrace
  obtain ⟨hhost', hcalls', -⟩ := dispatcher_turn hk cs (c.apply e)
  constructor
  · intro e' hrun
    obtain ⟨e₁, rs, t, henter, made, hrequests, hestablished, hresume⟩ :=
      dispatcher_established hk (e := c.apply e) run.opens hrun
    have hnative : (c.apply e).bases = (c.fs.getD b.1, c.gs.getD b.2) := by
      rw [← hbases]
      rfl
    rw [hnative] at hrequests hestablished
    exact ⟨e₁, rs, t, e'.fs, e'.gs, henter, hestablished, made, hrequests, hresume, rfl⟩
  · intro fs gs hmem
    have hcb : (fs, gs) ∈ callbacks (final (dispatcher k cs (c.apply e))).trace :=
      List.mem_filterMap.mpr ⟨_, hmem, rfl⟩
    have hsaved : (fs, gs) = (c.apply e).host := by
      rcases hcalls' _ hcb with hcb | hcb
      · exact hcalls _ hcb
      · exact hcb
    exact ⟨hsaved.trans hhost, hsaved⟩

end Runs

/-- A `ret` at `0x401000`, hooks of one byte, and the FS base at `0x7000`. -/
def retEngine : Engine :=
  { Engine.fresh (codeSpace fun a => if a = 0x401000 then 0xc3 else 0x90) with
    dump := { Hook.empty with length := 1 }
    restore := { Hook.empty with length := 1 }
    fs := 0x7000 }

/-- `retEngine` starts. -/
theorem instrument_retEngine :
    ∃ e, instrument Kernel.code scanEncodings.capstone 0x401000 retEngine = .ok () e := by
  have hret : scanEncodings.capstone.decodeAt retEngine.space.byte 0x401000 = some nearRet := by
    decide
  have hpages : Kernel.code.ProtectsAround retEngine.space retEngine.restore.length 0x401000 0 :=
    code_protectsAround (by decide) (by decide)
  have hscan : ∀ e' : Engine, e'.space = retEngine.space →
      e'.currSyscall = retEngine.currSyscall →
      ScansTo (fun base => opcodesCflow Kernel.code scanEncodings.capstone base true) 0x401000
        e' 0 false := by
    intro e' hspace hflag
    apply scansTo_of_firstCflow (d := 0)
    · rw [hspace, hflag]
      exact .here hret rfl
    · decide
    · rw [hspace]
      exact hpages.scan
  obtain ⟨e, hrun, -⟩ := instrument_up scanEncodings.capstone 0x401000 0 code_setsBases rfl
    ⟨by decide, by decide, by decide, by decide, rfl, rfl⟩ hscan (by decide)
    (hpages.block (by decide)) (by decide)
    (block_hooks_disjoint (by decide) (by decide) (by decide))
  exact ⟨e, hrun⟩

/-- The guest moves its FS base to `0x8000` in its first block. -/
theorem dispatcher_bases_retEngine :
    let c : NativeChange :=
      { state := .zero, space := retEngine.space, fs := some 0x8000, gs := none }
    ∃ e, GuestBases Kernel.code scanEncodings.capstone 0x401000 retEngine e (0x7000, 0) ∧
      ∀ e', dispatcher Kernel.code scanEncodings.capstone (c.apply e) = .ok () e' →
        ∃ e₁ rs t fs gs,
          (do enterHost Kernel.code; userCallback; takeDownHooks Kernel.code : Eng Unit)
              (c.apply e) =
            .ok () e₁ ∧
          (fs, gs) = afterCalls (e₁.calls scanEncodings.capstone) (0x8000, 0) ∧
          e'.requests = rs ++ e.requests ∧
          (fs, gs) = afterRequests rs (0x8000, 0) ∧
          e'.trace = .resume fs gs :: t ∧ e'.bases = (fs, gs) := by
  intro c
  obtain ⟨e, hrun⟩ := instrument_retEngine
  exact ⟨e, .start hrun, (dispatcher_bases code_setsBases rfl rfl (.start hrun) c).1⟩

end Dryadalis
