import Dryadalis.Hooks

/-!
# The protections of the guest's pages

Every round of a copy puts the protection of its page back to what `get_prot` reported,
and `get_prot` reports the same for every page.  So the pages that a copy gets to end up
readable, writable and executable, whatever they were before.

A copy stops at the first byte that it cannot copy, because the page cannot be read or
written or because it cannot be protected.  `memRead_stop`, `memWrite_stop` and
`hookRun_stop` say which byte that is, for `mem_read`, for `mem_write`, and for
`write_hook` followed by `restore_bytes`.  The protections are as before exactly when the
pages of the bytes before it were readable, writable and executable already.
-/

namespace Dryadalis

open ByteMem Exec

/-! ## The pages that a copy gets to -/

section Stop

variable {p : Nat → Prop} {prot : Word → Option Prot} {a : Word}

/-- The bytes that are copied, one after the other, while `p` holds of them are all in pages
that were readable, writable and executable. -/
def AllAllowed (p : Nat → Prop) (prot : Word → Option Prot) (a : Word) (n : Nat) : Prop :=
  ∀ i, i < n → (∀ j, j ≤ i → p j) →
    prot (pageAlign (a + BitVec.ofNat 64 i)) = some ⟨true, true, true⟩

/-- A copy that stops at the byte `e` changes no protection exactly when there was nothing to
change. -/
theorem allowProt_eq_iff {e n : Nat} (hle : e ≤ n) (hp : ∀ j, j < e → p j)
    (hstop : e = n ∨ ¬ p e) : allowProt prot a e = prot ↔ AllAllowed p prot a n := by
  constructor
  · intro h i hi hall
    have hlt : i < e := by
      rcases hstop with rfl | hstop
      · exact hi
      · by_contra hge
        exact hstop (hall e (Nat.le_of_not_lt hge))
    rw [← h, allowProt, if_pos ⟨i, hlt, rfl⟩]
  · intro h
    funext page
    rw [allowProt]
    split
    · rename_i hpage
      obtain ⟨i, hi, rfl⟩ := hpage
      exact (h i (Nat.lt_of_lt_of_le hi hle) fun j hj => hp j (Nat.lt_of_le_of_lt hj hi)).symm
    · rfl

/-- Going over pages that have been allowed already. -/
theorem allowProt_allowProt {n n' : Nat} (h : n ≤ n') :
    allowProt (allowProt prot a n) a n' = allowProt prot a n' := by
  funext page
  simp only [allowProt]
  split
  · rfl
  · rename_i hnone
    rw [if_neg]
    rintro ⟨i, hi, heq⟩
    exact hnone ⟨i, by omega, heq⟩

end Stop

/-- A write that gets to the byte at distance `i` goes on: the byte is written if it is one of
the range, and its page is protected. -/
def Space.Writes (k : Kernel) (m : Space) (a size : Word) (i : Nat) : Prop :=
  k.Opens a i ∧ (i < size.toNat → m.Stores a i)

/-- Writing a hook and taking it down goes on at the byte: it is read first, and the pages are
open by the time that it is written. -/
def Hook.GoesOn (k : Kernel) (m : Space) (h : Hook) (i : Nat) : Prop :=
  k.Opens h.jmp i ∧ (i < h.length.toNat → k.Loads m h.jmp i)

/-! ## One copy -/

section Copies

variable (k : Kernel) (m : Space) (buf : Nat → Byte) (a size : Word)

/-- Where `mem_read` stops. -/
theorem memRead_stop :
    ∃ e, e ≤ size.toNat ∧ (∀ j, j < e → k.Reads m a j) ∧
      (final (memRead k a size ⟨buf, m⟩)).space.prot = allowProt m.prot a e ∧
      ((∃ r s', memRead k a size ⟨buf, m⟩ = .ok r s' ∧ (r ≠ -1 ∧ e = size.toNat ∨ ¬ k.Opens a e)) ∨
        (∃ s', memRead k a size ⟨buf, m⟩ = .error .crash s') ∧ e < size.toNat ∧
          ¬ k.Loads m a e) := by
  by_cases hzero : size = 0
  · subst hzero
    exact ⟨0, le_refl _, fun j hj => absurd hj (Nat.not_lt_zero j),
      by rw [memRead, if_pos rfl, allowProt_zero]; rfl,
      Or.inl ⟨0, _, if_pos rfl, Or.inl ⟨by decide, rfl⟩⟩⟩
  have hpos := BitVec.toNat_pos_of_ne_zero hzero
  have hout : Outcome k m a size _ _ _ _ (memReadRounds k a size ⟨buf, m⟩) :=
    memReadRounds_outcome k ⟨buf, m⟩ hpos
  rw [memRead_eq_rounds]
  generalize memReadRounds k a size ⟨buf, m⟩ = out at hout
  cases hout with
  | @whole rs last s ends reads tiles copies done =>
    obtain ⟨rfl, -⟩ := done
    exact ⟨size.toNat, le_refl _, fun j hj => reads j (Nat.zero_le j) hj, rfl,
      Or.inl ⟨_, _, rfl, Or.inl ⟨by omega, rfl⟩⟩⟩
  | @short rs at_ sz s reads loads shut inRange tiles copies failed =>
    exact ⟨at_.toNat, inRange.le, fun j hj => reads j (Nat.zero_le j) hj,
      congrArg Space.prot failed.space, Or.inl ⟨_, s, rfl, Or.inr shut⟩⟩
  | @fault rs at_ s reads faults inRange tiles copies done =>
    obtain ⟨rfl, -⟩ := done
    exact ⟨at_.toNat, inRange.le, fun j hj => reads j (Nat.zero_le j) hj, rfl,
      Or.inr ⟨⟨_, rfl⟩, inRange, faults⟩⟩

variable {k m a size}

/-- Where `mem_write` stops. -/
theorem memWrite_stop (hint : size.toNat < 2 ^ 31) :
    ∃ e, e ≤ size.toNat + 1 ∧ (∀ j, j < e → m.Writes k a size j) ∧
      (final (memWrite k a buf size m)).prot = allowProt m.prot a e ∧
      ((∃ m', memWrite k a buf size m = .ok size.toNat m') ∧ e = size.toNat + 1 ∨
        (∃ m', memWrite k a buf size m = .ok (-1) m') ∧ e ≤ size.toNat ∧ ¬ k.Opens a e ∨
        (∃ m', memWrite k a buf size m = .error .crash m') ∧ e < size.toNat ∧
          ¬ m.Stores a e) := by
  have hout := memWriteCalls_outcome k m a buf hint
  rw [memWrite_eq_calls]
  generalize memWriteCalls k a buf size m = out at hout
  cases hout with
  | @whole calls m' opens stores pages byte prot =>
    exact ⟨size.toNat + 1, le_refl _,
      fun j hj => ⟨opens j (Nat.zero_le j) (Nat.lt_succ_iff.mp hj), stores j (Nat.zero_le j)⟩,
      prot, Or.inl ⟨⟨m', rfl⟩, rfl⟩⟩
  | @short calls m' e n opens stores shut start inRange pages written byte prot =>
    exact ⟨e, Nat.le_succ_of_le inRange,
      fun j hj => ⟨opens j (Nat.zero_le j) hj, stores j (Nat.zero_le j) hj.le⟩,
      prot, Or.inr (Or.inl ⟨⟨m', rfl⟩, inRange, shut⟩)⟩
  | @fault calls m' e opens stores faults start inRange pages byte prot =>
    exact ⟨e, by omega,
      fun j hj => ⟨opens j (Nat.zero_le j) hj, fun _ => stores j (Nat.zero_le j) hj⟩,
      prot, Or.inr (Or.inr ⟨⟨m', rfl⟩, inRange, faults⟩)⟩

/-- A write over pages that an earlier copy has opened up to the byte `e`.  It stops only at
pages that cannot be protected, and goes on only if that copy got to the end. -/
theorem memWrite_again {prot : Word → Option Prot} {e : Nat} (hint : size.toNat < 2 ^ 31)
    (hprot : m.prot = allowProt prot a e) (hopens : ∀ j, j < e → k.Opens a j)
    (hle : e ≤ size.toNat + 1) (hstop : size.toNat ≤ e ∨ ¬ k.Opens a e) :
    ∃ e', e ≤ e' ∧ e' ≤ size.toNat + 1 ∧ (∀ j, j < e' → k.Opens a j) ∧
      (final (memWrite k a buf size m)).prot = allowProt prot a e' ∧
      ((∃ m', memWrite k a buf size m = .ok size.toNat m') ∧ e' = size.toNat + 1 ∨
        ((∃ m', memWrite k a buf size m = .ok (-1) m') ∨
          ∃ m', memWrite k a buf size m = .error .crash m') ∧ ¬ k.Opens a e') := by
  have hstores : ∀ j, j < e → m.Stores a j := by
    intro j hj
    rw [Space.Stores, hprot, allowProt, if_pos ⟨j, hj, rfl⟩]
    rfl
  obtain ⟨e', hle', hwrites, hprot', hend⟩ := memWrite_stop (k := k) (m := m) (a := a) buf hint
  have hopens' : ∀ j, j < e' → k.Opens a j := fun j hj => (hwrites j hj).1
  have hend' : (∃ m', memWrite k a buf size m = .ok size.toNat m') ∧ e' = size.toNat + 1 ∨
      ((∃ m', memWrite k a buf size m = .ok (-1) m') ∨
        ∃ m', memWrite k a buf size m = .error .crash m') ∧ ¬ k.Opens a e' := by
    rcases hend with hwhole | ⟨hfail, -, hshut⟩ | ⟨hdead, hin, hfault⟩
    · exact Or.inl hwhole
    · exact Or.inr ⟨Or.inl hfail, hshut⟩
    · -- The bytes before `e` can be written, so the write dies at `e`.
      have hge : e ≤ e' := Nat.le_of_not_lt fun hlt => hfault (hstores e' hlt)
      have hshut : ¬ k.Opens a e := hstop.resolve_left (by omega)
      have heq : e' = e := Nat.le_antisymm (Nat.le_of_not_lt fun hlt => hshut (hopens' e hlt)) hge
      rw [heq]
      exact Or.inr ⟨Or.inr hdead, hshut⟩
  have hge : e ≤ e' := by
    rcases hend' with ⟨-, rfl⟩ | ⟨-, hshut⟩
    · exact hle
    · exact Nat.le_of_not_lt fun hlt => hshut (hopens e' hlt)
  refine ⟨e', hge, hle', hopens', ?_, hend'⟩
  rw [hprot', hprot, allowProt_allowProt hge]

end Copies

/-! ## A hook that is written and taken down -/

section Hook

variable (k : Kernel) (e : Engine) (which : Which)

/-- `write_hook`, and then `restore_bytes`. -/
def hookRun : Eng Unit := do
  let _ ← writeHook k which
  restoreBytes k which

variable {k e which}

/-- `restore_bytes` after a `write_hook` that has opened every page. -/
theorem restoreBytes_prot {prot : Word → Option Prot}
    (hint : (e.hook which).length.toNat < 2 ^ 31)
    (hprot : e.space.prot = allowProt prot (e.hook which).jmp ((e.hook which).length.toNat + 1))
    (hopens : ∀ j, j < (e.hook which).length.toNat + 1 → k.Opens (e.hook which).jmp j) :
    (final (restoreBytes k which e)).space.prot =
      allowProt prot (e.hook which).jmp ((e.hook which).length.toNat + 1) := by
  obtain ⟨e', hge, hle, -, hprot', -⟩ := memWrite_again (k := k) (e.hook which).origBytes hint
    hprot hopens (le_refl _) (Or.inl (Nat.le_succ _))
  rw [Nat.le_antisymm hle hge] at hprot'
  rw [restoreBytes, bind_of_ok (get_apply e)]
  simp only [isMapped_eq_true, Bool.not_true, Bool.false_eq_true, if_false]
  rw [bind_apply, writeMem]
  cases hwrite : memWrite k (e.hook which).jmp (e.hook which).origBytes (e.hook which).length
      e.space with
  | error h m' =>
    rw [hwrite] at hprot'
    exact hprot'
  | ok r m' =>
    rw [hwrite] at hprot'
    simp only
    split
    · obtain ⟨e₂, hstop, hspace⟩ := fatalDump_stops (α := Unit) { e with space := m' }
      rw [hstop, final_error, hspace]
      exact hprot'
    · exact hprot'

/-- Where writing a hook and taking it down stops. -/
theorem hookRun_stop (hint : (e.hook which).length.toNat < 2 ^ 31) :
    ∃ n, n ≤ (e.hook which).length.toNat + 1 ∧
      (∀ j, j < n → (e.hook which).GoesOn k e.space j) ∧
      (n = (e.hook which).length.toNat + 1 ∨ ¬ (e.hook which).GoesOn k e.space n) ∧
      (final (hookRun k which e)).space.prot = allowProt e.space.prot (e.hook which).jmp n := by
  obtain ⟨n, hle, hreads, hprot, hend⟩ := memRead_stop k e.space (e.hook which).origBytes
    (e.hook which).jmp (e.hook which).length
  have hopens : ∀ j, j < n → k.Opens (e.hook which).jmp j := fun j hj => (hreads j hj).2
  rw [hookRun, writeHook, bind_apply, bind_of_ok (mapHook_eq e which), bind_of_ok (get_apply e)]
  rcases hend with ⟨r, s', hread, hstop⟩ | ⟨⟨s', hread⟩, hin, hfault⟩
  · rw [hread] at hprot
    have hok : readMem k (e.hook which).origBytes (e.hook which).jmp (e.hook which).length e =
        .ok (r, s'.buf) { e with space := s'.space } := by rw [readMem, hread]
    rw [bind_of_ok hok]
    simp only
    rw [bind_of_ok (modify_apply _ _)]
    generalize hsaved : ({ e with space := s'.space } : Engine).setHook which
      { e.hook which with origBytes := s'.buf } = e₁
    have hspace : e₁.space = s'.space := by
      rw [← hsaved]
      cases which <;> rfl
    have hjmp : (e₁.hook which).jmp = (e.hook which).jmp := by
      rw [← hsaved]
      cases which <;> rfl
    have hlength : (e₁.hook which).length = (e.hook which).length := by
      rw [← hsaved]
      cases which <;> rfl
    by_cases hret : r = -1
    · obtain ⟨e₂, hfatal, hspace₂⟩ := fatalDump_stops (α := PUnit) e₁
      have hshut : ¬ k.Opens (e.hook which).jmp n := hstop.resolve_left fun h => h.1 hret
      rw [if_pos hret, bind_of_error hfatal]
      refine ⟨n, Nat.le_succ_of_le hle, fun j hj => ⟨hopens j hj, fun _ => (hreads j hj).1⟩,
        Or.inr fun h => hshut h.1, ?_⟩
      simp only [final_error]
      rw [hspace₂, hspace]
      exact hprot
    · rw [if_neg hret]
      have hstop' : (e.hook which).length.toNat ≤ n ∨ ¬ k.Opens (e.hook which).jmp n :=
        hstop.imp_left fun h => h.2.ge
      have hprot₁ : e₁.space.prot = allowProt e.space.prot (e.hook which).jmp n := by
        rw [hspace]
        exact hprot
      obtain ⟨n', hge, hle', hopens', hprot', hend'⟩ := memWrite_again (k := k)
        (e.hook which).code hint hprot₁ hopens (Nat.le_succ_of_le hle) hstop'
      have hgoes : ∀ j, j < n' → (e.hook which).GoesOn k e.space j := by
        refine fun j hj => ⟨hopens' j hj, fun hin => ?_⟩
        by_cases hlt : j < n
        · exact (hreads j hlt).1
        · have hshut := hstop'.resolve_left (by omega)
          exact absurd (hopens' n (by omega)) hshut
      refine ⟨n', hle', hgoes, ?_, ?_⟩
      · exact hend'.imp (fun h => h.2) fun h hgoes => h.2 hgoes.1
      · rw [bind_apply, writeMem]
        rcases hend' with ⟨⟨m', hwrite⟩, rfl⟩ | ⟨⟨m', hwrite⟩ | ⟨m', hwrite⟩, hshut⟩
        · rw [hwrite] at hprot' ⊢
          have hne : ((e.hook which).length.toNat : Int) ≠ -1 := by omega
          have hsame : ({ e₁ with space := m' } : Engine).hook which = e₁.hook which := by
            cases which <;> rfl
          have hrest := @restoreBytes_prot k { e₁ with space := m' } which e.space.prot
            (by rw [hsame, hlength]; exact hint)
            (by rw [hsame, hjmp, hlength]; exact hprot')
            (by rw [hsame, hjmp, hlength]; exact hopens')
          rw [hsame, hjmp, hlength] at hrest
          simp only [if_neg hne]
          exact hrest
        · rw [hwrite] at hprot' ⊢
          obtain ⟨e₂, hfatal, hspace₂⟩ := fatalDump_stops (α := PUnit) { e₁ with space := m' }
          simp only [if_true]
          rw [bind_of_error hfatal]
          simp only [final_error]
          rw [hspace₂]
          exact hprot'
        · rw [hwrite] at hprot' ⊢
          exact hprot'
  · rw [hread] at hprot
    refine ⟨n, Nat.le_succ_of_le hle, fun j hj => ⟨hopens j hj, fun _ => (hreads j hj).1⟩,
      Or.inr fun h => hfault (h.2 hin), ?_⟩
    have hcrash : readMem k (e.hook which).origBytes (e.hook which).jmp (e.hook which).length e =
        .error .crash { e with space := s'.space } := by rw [readMem, hread]
    rw [bind_of_error hcrash]
    exact hprot

end Hook

/-! ## The protections before and after -/

/-- The protections of the guest's pages are as before after a read, after a write, and
after a hook was written and taken down, exactly when every page that the copies get to was
readable, writable and executable.  The same holds where a copy dies on the way. -/
theorem protections_kept_iff (k : Kernel) (m : Space) (buf : Nat → Byte) (a size : Word)
    (e : Engine) (which : Which) :
    ((final (memRead k a size ⟨buf, m⟩)).space.prot = m.prot ↔
      AllAllowed (k.Reads m a) m.prot a size.toNat) ∧
    (size.toNat < 2 ^ 31 →
      ((final (memWrite k a buf size m)).prot = m.prot ↔
        AllAllowed (m.Writes k a size) m.prot a (size.toNat + 1))) ∧
    ((e.hook which).length.toNat < 2 ^ 31 →
      ((final (hookRun k which e)).space.prot = e.space.prot ↔
        AllAllowed ((e.hook which).GoesOn k e.space) e.space.prot (e.hook which).jmp
          ((e.hook which).length.toNat + 1))) := by
  refine ⟨?_, fun hint => ?_, fun hint => ?_⟩
  · obtain ⟨n, hle, hreads, hprot, hend⟩ := memRead_stop k m buf a size
    rw [hprot]
    refine allowProt_eq_iff hle hreads ?_
    rcases hend with ⟨r, s', -, ⟨-, hall⟩ | hshut⟩ | ⟨-, -, hfault⟩
    · exact Or.inl hall
    · exact Or.inr fun h => hshut h.2
    · exact Or.inr fun h => hfault h.1
  · obtain ⟨n, hle, hwrites, hprot, hend⟩ := memWrite_stop (k := k) (m := m) (a := a) buf hint
    rw [hprot]
    refine allowProt_eq_iff hle hwrites ?_
    rcases hend with ⟨-, hall⟩ | ⟨-, -, hshut⟩ | ⟨-, hin, hfault⟩
    · exact Or.inl hall
    · exact Or.inr fun h => hshut h.1
    · exact Or.inr fun h => hfault (h.2 hin)
  · obtain ⟨n, hle, hgoes, hstop, hprot⟩ := hookRun_stop (k := k) hint
    rw [hprot]
    exact allowProt_eq_iff hle hgoes hstop

/-- One byte of a page that has all rights, and a hook of one byte in it. -/
theorem protections_kept_iff_data_page :
    let k := Kernel.between 0x1000 0x2000
    let m := dataPage ⟨true, true, true⟩
    let e := { Engine.fresh m with dump := { Hook.empty with length := 1, jmp := 0x1000 } }
    ((final (memWrite k 0x1000 (fun _ => 7) 1 m)).prot = m.prot ↔
        AllAllowed (m.Writes k 0x1000 1) m.prot 0x1000 2) ∧
      ((final (hookRun k .dump e)).space.prot = m.prot ↔
        AllAllowed ((e.hook .dump).GoesOn k m) m.prot 0x1000 2) := by
  intro k m e
  obtain ⟨-, hwrite, hhook⟩ := protections_kept_iff k m (fun _ => 7) 0x1000 1 e .dump
  exact ⟨hwrite (by decide), hhook (by decide)⟩

/-- A page that is only readable can be written and executed after one byte of it was read. -/
theorem memRead_opens_page :
    let m := dataPage ⟨true, false, false⟩
    (final (memRead (Kernel.between 0x1000 0x2000) 0x1000 1 ⟨fun _ => 0, m⟩)).space.prot ≠
      m.prot := by
  intro m hkept
  have hopened : (final (memRead (Kernel.between 0x1000 0x2000) 0x1000 1
      ⟨fun _ => 0, m⟩)).space.prot 0x1000 = some ⟨true, true, true⟩ := rfl
  rw [hkept] at hopened
  cases hopened

end Dryadalis
