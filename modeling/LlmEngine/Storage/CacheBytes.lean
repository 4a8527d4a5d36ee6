/-
# LlmEngine.Storage.CacheBytes — a resident key's bytes are its own.

`CacheContent` is about the whole entry and needs the runs to be clean, because the batch path can
leave a key with another key's metadata.  The bytes are safer: nothing but a load writes them, a load
writes its own slot only, and a slot is registered to the key whose load filled it.  The one promise
that is needed is the one `cache.h` gives for `load`: the payload starts where the widened direct
read begins, inside the first alignment unit of the buffer, so its offset survives `(int32_t)`
(`EngCacheSrc.Widens`).

`BytesOk` is the invariant, of all slots but those that are being filled: a registered slot was filled by a
load of its key (`Filled`), since when nothing has written there.  In a batch the slots under way are the
exception, and each is taken off the list when it is published or marked EMPTY.

`reaches_bytesOk` says it of every run, refusals and short reads included; a key whose metadata was
overwritten by a refused one still has its bytes.
-/
import LlmEngine.Storage.CacheContent

namespace LlmEngine.Storage.Cache

open LlmEngine.Storage LlmEngine.Lib EngCache

variable {σ : Type} {m : Nat} {c c' : EngCache σ m}

/-- The bytes of the entry are those one full `load` of `k` delivered. -/
def OwnBytes (c : EngCache σ m) (k : Nat) (e : EngCacheEntry m) : Prop :=
  ∃ slot given off buf, Event.load k slot given e.nbytes e.nbytes off buf ∈ c.log ∧
    ∀ i : Nat, (i : Int) < e.nbytes → c.arena (e.data + i) = buf (off + i).toNat

/-- What `cache.h` asks of `load`: a payload begins past the alignment padding and nothing more. -/
def EngCacheSrc.Widens (src : EngCacheSrc σ m) : Prop :=
  ∀ ctx k given buf cap, 0 ≤ (src.load ctx k given buf cap).got →
    (src.load ctx k given buf cap).payloadOff < engIoAlign

/-- Slot `slot` holds `need` bytes a load of `k` delivered, starting at `off`. -/
def Filled (c : EngCache σ m) (k slot : Nat) (need off : Int) : Prop :=
  ∃ given at_ buf, Event.load k slot given need need at_ buf ∈ c.log ∧
    (0 ≤ need → off = at_ ∧ 0 ≤ at_ ∧ at_ + need ≤ c.stride) ∧
    ∀ i : Nat, (i : Int) < need → c.arena (c.slotBase slot + off + i) = buf (at_ + i).toNat

/-- The registered slots hold their keys' bytes; `except` is a slot a load has just overwritten. -/
def BytesOk (c : EngCache σ m) (except : List Nat) : Prop :=
  ∀ slot k, slot ∉ except → c.keyOf slot = .key k → Filled c k slot (c.nbytes slot) (c.pad slot)

theorem Filled.ownBytes {slot k : Nat} (h : Filled c k slot (c.nbytes slot) (c.pad slot)) :
    OwnBytes c k (c.entryOf slot) := by
  obtain ⟨given, at_, buf, hload, -, hbytes⟩ := h
  exact ⟨slot, given, at_, buf, hload, hbytes⟩

/-- The bytes of the slot are where they were. -/
theorem Filled.frame {k slot : Nat} {need off : Int} (h : Filled c k slot need off)
    (hstride : c'.stride = c.stride) (hlog : c.log ⊆ c'.log)
    (harena : ∀ a, c.slotBase slot ≤ a → a < c.slotBase slot + c.stride → c'.arena a = c.arena a) :
    Filled c' k slot need off := by
  obtain ⟨given, at_, buf, hload, hin, hbytes⟩ := h
  have hbase : c'.slotBase slot = c.slotBase slot := by unfold slotBase; rw [hstride]
  refine ⟨given, at_, buf, hlog hload, hstride ▸ hin, fun i hi => ?_⟩
  obtain ⟨hoff, hlo, hhi⟩ := hin (by omega)
  rw [hbase, harena _ (by omega) (by omega)]
  exact hbytes i hi

/-- A step that moves no byte and registers no key. -/
theorem BytesOk.keep {except : List Nat} (h : BytesOk c except)
    (hkey : ∀ s k, s ∉ except → c'.keyOf s = .key k → c.keyOf s = .key k)
    (hstride : c'.stride = c.stride) (hlog : c.log ⊆ c'.log) (harena : c'.arena = c.arena)
    (hnbytes : c'.nbytes = c.nbytes) (hpad : c'.pad = c.pad) : BytesOk c' except := by
  intro slot k hslot hk
  rw [hnbytes, hpad]
  exact (h slot k hslot (hkey slot k hslot hk)).frame hstride hlog fun a _ _ => by rw [harena]

/-- A load spoils its own slot only. -/
theorem BytesOk.loaded {except : List Nat} (h : BytesOk c except) (key slot : Nat) (need : Int) :
    BytesOk (c.loaded key slot need) (slot :: except) := by
  intro s k hs hk
  have hne : s ≠ slot := fun heq => hs (heq ▸ List.mem_cons_self ..)
  have hsame := loaded_sameSlot c key need hne
  exact (h s k (fun hmem => hs (List.mem_cons_of_mem _ hmem)) hk).frame hsame.stride hsame.log hsame.arena

/-- A full load fills its slot, and the offset it reports survives the cast. -/
theorem loaded_filled (hsrc : c.src.Widens) {key slot : Nat} {need : Int}
    (hgot : (c.load key slot).got = need) :
    Filled (c.loaded key slot need) key slot need (toInt32 (c.load key slot).payloadOff) := by
  have hin := (c.load key slot).inside
  have hwide : 0 ≤ (c.load key slot).got → (c.load key slot).payloadOff < engIoAlign :=
    hsrc c.ctx key (c.slotMeta slot) _ c.stride
  rw [hgot] at hin hwide
  have hoff : 0 ≤ need → toInt32 (c.load key slot).payloadOff = (c.load key slot).payloadOff := by
    intro hneed
    have hlo := (hin hneed).1
    have hhi := hwide hneed
    unfold engIoAlign at hhi
    unfold toInt32
    exact Int.bmod_eq_of_le (by omega) (by omega)
  refine ⟨c.slotMeta slot, (c.load key slot).payloadOff, (c.load key slot).buf, ?_,
    fun hneed => ⟨hoff hneed, hin hneed⟩, fun i hi => ?_⟩
  · have hev : (c.loaded key slot need).log = .load key slot (c.slotMeta slot) need
        (c.load key slot).got (c.load key slot).payloadOff (c.load key slot).buf :: c.log := rfl
    rw [hev, hgot]
    exact List.mem_cons_self ..
  · obtain ⟨hlo, hhi⟩ := hin (by omega)
    rw [hoff (by omega)]
    show (if c.slotBase slot ≤ _ ∧ _ then _ else _) = _
    rw [if_pos ⟨by show _ ≤ c.slotBase slot + _ + _; omega,
      by show c.slotBase slot + _ + _ < _; omega⟩]
    congr 2
    show c.slotBase slot + _ + _ - _ = _
    omega

/-- Registering the key whose bytes the slot holds closes the exception. -/
theorem BytesOk.publish {except : List Nat} {key slot : Nat} {got off : Int}
    (h : BytesOk c (slot :: except)) (hfill : Filled c key slot got (toInt32 off)) :
    BytesOk (c.publish key slot got off) except := by
  intro s k hs hk
  have hk : Function.update c.keyOf slot (.key key) s = .key k := hk
  show Filled _ k s (Function.update c.nbytes slot got s) (Function.update c.pad slot (toInt32 off) s)
  by_cases heq : s = slot
  · subst heq
    rw [Function.update_self] at hk
    obtain rfl := SlotState.key.inj hk
    rw [Function.update_self, Function.update_self]
    exact hfill.frame rfl (List.Subset.refl _) fun _ _ _ => rfl
  · rw [Function.update_of_ne heq] at hk
    rw [Function.update_of_ne heq, Function.update_of_ne heq]
    refine (h s k ?_ hk).frame rfl (List.Subset.refl _) fun _ _ _ => rfl
    intro hmem
    exact (List.mem_cons.mp hmem).elim heq hs

/-- So does leaving the slot EMPTY. -/
theorem BytesOk.markEmpty {except : List Nat} {slot : Nat} (h : BytesOk c (slot :: except)) :
    BytesOk (c.markEmpty slot) except := by
  intro s k hs hk
  have hk : Function.update c.keyOf slot .empty s = .key k := hk
  by_cases heq : s = slot
  · subst heq
    rw [Function.update_self] at hk
    cases hk
  · rw [Function.update_of_ne heq] at hk
    refine (h s k ?_ hk).frame rfl (List.Subset.refl _) fun _ _ _ => rfl
    intro hmem
    exact (List.mem_cons.mp hmem).elim heq hs

/-! ## Requests -/

theorem fill_bytesOk (hsrc : c.src.Widens) (h : BytesOk c []) (key slot : Nat) (need : Int)
    (wrote : Vector UInt8 m) : BytesOk (fill c key slot need wrote).1 [] := by
  have hinst : BytesOk (c.install slot wrote) [] :=
    h.keep (fun _ _ _ hk => hk) rfl (List.Subset.refl _) rfl rfl rfl
  have hload := hinst.loaded key slot need
  by_cases hgot : ((c.install slot wrote).load key slot).got = need
  · rw [fill_full hgot]
    exact hload.publish (loaded_filled (c := c.install slot wrote) hsrc hgot)
  · rw [fill_short hgot]
    exact hload.markEmpty

theorem admitKey_bytesOk (hsrc : c.src.Widens) (h : BytesOk c []) (key : Nat) :
    BytesOk (admitKey c key).1 [] := by
  have hdesc : BytesOk (admitDescribed c key).1 [] :=
    h.keep (fun _ _ _ hk => hk) rfl (List.subset_cons_self _ _) rfl rfl rfl
  rcases admitKey_cases c key with ⟨slot, -, heq⟩ | ⟨-, -, heq⟩ | ⟨-, -, slot, -, heq⟩
  · rw [heq]
    exact h.keep (fun _ _ _ hk => hk) rfl (List.Subset.refl _) rfl rfl rfl
  · rw [heq]
    exact hdesc
  · rw [heq]
    exact fill_bytesOk (c := (admitDescribed c key).1) hsrc hdesc key slot _ _

/-! ## Batches -/

theorem reserve_bytesOk : ∀ (ks : List Nat) {c : EngCache σ m} (w : List Work), BytesOk c [] →
    BytesOk (reserve c ks w).1 []
  | [], c, w, h => h
  | k :: ks, c, w, h => by
      unfold reserve
      split_ifs
      · exact h
      · rcases reserveOne_cases c w k with heq | ⟨-, heq⟩ | ⟨slot, -, -, -, -, hcase⟩
        · rw [heq]
          exact reserve_bytesOk ks w h
        · rw [heq]
          exact h
        · have hdesc : BytesOk (describedInto c k slot) [] :=
            h.keep (fun _ _ _ hk => hk) rfl (List.subset_cons_self _ _) rfl rfl rfl
          rcases hcase with ⟨-, heq⟩ | ⟨-, -, heq⟩
          · rw [heq]
            exact reserve_bytesOk ks w hdesc
          · rw [heq]
            refine reserve_bytesOk ks _ (hdesc.keep ?_ rfl (List.Subset.refl _) rfl rfl rfl)
            -- the slot taken is INFLIGHT, the others keep their keys
            intro s k' _ hk'
            have hk' : Function.update c.keyOf slot .inflight s = .key k' := hk'
            by_cases hs : s = slot
            · subst hs
              rw [Function.update_self] at hk'
              cases hk'
            · rwa [Function.update_of_ne hs] at hk'

/-- The loads of a batch spoil no registered slot, and each that is full fills its own. -/
theorem loadAll_filled : ∀ (ws : List Work) {c : EngCache σ m}, c.src.Widens →
    (ws.map Work.slot).Nodup → ∀ w ∈ (loadAll c ws).2, w.got = w.need →
      Filled (loadAll c ws).1 w.key w.slot w.need (toInt32 w.pad)
  | [], c, _, _, w, hw, _ => by cases hw
  | x :: xs, c, hsrc, hnodup, w, hw, hgot => by
      obtain ⟨hslot, hnodup'⟩ := List.nodup_cons.mp hnodup
      rcases List.mem_cons.mp hw with rfl | hw
      · have hfill : Filled (c.loaded x.key x.slot x.need) x.key x.slot x.need
            (toInt32 (c.load x.key x.slot).payloadOff) := loaded_filled hsrc hgot
        obtain ⟨hsame, -, -⟩ := loadAll_sameSlot xs (c := c.loaded x.key x.slot x.need) hslot
        exact hfill.frame hsame.stride hsame.log hsame.arena
      · exact loadAll_filled xs (c := c.loaded x.key x.slot x.need) hsrc hnodup' w hw hgot

theorem publishAll_bytesOk : ∀ (ws : List Work) {c : EngCache σ m} (ok : Nat),
    (ws.map Work.slot).Nodup → BytesOk c (ws.map Work.slot) →
    (∀ w ∈ ws, w.got = w.need → Filled c w.key w.slot w.need (toInt32 w.pad)) →
    BytesOk (publishAll c ws ok).1 []
  | [], c, ok, _, h, _ => h
  | w :: ws, c, ok, hnodup, h, hfill => by
      have hnodup' := (List.nodup_cons.mp hnodup).2
      have hrest : ∀ {c' : EngCache σ m}, c'.stride = c.stride → c.log ⊆ c'.log →
          c'.arena = c.arena →
          ∀ x ∈ ws, x.got = x.need → Filled c' x.key x.slot x.need (toInt32 x.pad) := by
        intro c' hst hlog harena x hx hgot
        exact (hfill x (List.mem_cons_of_mem _ hx) hgot).frame hst hlog fun a _ _ => by rw [harena]
      unfold publishAll
      by_cases hgot : w.got = w.need
      · rw [if_neg (not_not.mpr hgot)]
        have hself : Filled c w.key w.slot w.got (toInt32 w.pad) :=
          hgot ▸ hfill w (List.mem_cons_self ..) hgot
        have hpub := BytesOk.publish h hself
        refine publishAll_bytesOk ws (ok + 1) hnodup' ?_ (hrest rfl (List.Subset.refl _) rfl)
        exact hpub.keep (fun _ _ _ hk => hk) rfl (List.Subset.refl _) rfl rfl rfl
      · rw [if_pos hgot]
        exact publishAll_bytesOk ws ok hnodup' (BytesOk.markEmpty h) (hrest rfl (List.Subset.refl _) rfl)

theorem engCacheGetMany_bytesOk (hsrc : c.src.Widens) (hq : Quiet c) (h : BytesOk c [])
    (keys : List Nat) : BytesOk (engCacheGetMany c keys).1 [] := by
  obtain ⟨hb, new₁, -, hf⟩ := reserve_batch keys hq
  have h₁ := reserve_bytesOk keys [] h
  unfold engCacheGetMany
  simp only
  split_ifs with hnil
  · exact h₁
  · have hperm := issueOrder_perm (reserve c keys []).1 (reserve c keys []).2
    have hb' := hb.perm (hperm.map _) (hperm.map _)
    have hsrc₁ : (reserve c keys []).1.src.Widens := by rw [hf.src]; exact hsrc
    generalize issueOrder (reserve c keys []).1 (reserve c keys []).2 = ws at *
    generalize (reserve c keys []).1 = c₁ at *
    obtain ⟨new, hf₂, -, -, hko, -, -⟩ := loadAll_frame ws hb'.unpinned
    obtain ⟨hmap, -⟩ := loadAll_works ws c₁
    refine publishAll_bytesOk _ 0 (by rw [hmap]; exact hb'.slots) ?_
      (loadAll_filled ws hsrc₁ hb'.slots)
    intro s k hs hk
    rw [hmap] at hs
    rw [hko] at hk
    obtain ⟨hsame, hn, hp⟩ := loadAll_sameSlot ws (c := c₁) hs
    rw [hn, hp]
    exact (h₁ s k List.not_mem_nil hk).frame hsame.stride hsame.log hsame.arena

/-! ## Whole runs -/

theorem applyOp_bytesOk (hsrc : c.src.Widens) (hq : Quiet c) (h : BytesOk c []) (op : Op) :
    BytesOk (applyOp c op) [] := by
  cases op with
  | get key =>
      show BytesOk (engCacheGet c key).1 []
      unfold engCacheGet
      split_ifs
      · have hrec : BytesOk (record c key) [] :=
          h.keep (fun _ _ _ hk => hk) rfl (List.Subset.refl _) rfl rfl rfl
        exact admitKey_bytesOk (c := record c key) hsrc hrec key
      · exact h
  | getMany keys => exact engCacheGetMany_bytesOk hsrc hq h keys
  | peek key => exact h
  | pin key pin =>
      show BytesOk (engCachePin c key pin).1 []
      unfold engCachePin
      split_ifs
      · cases c.slotOf key with
        | none => exact h
        | some slot => exact h.keep (fun _ _ _ hk => hk) rfl (List.Subset.refl _) rfl rfl rfl
      · exact h
  | resetStats => exact h.keep (fun _ _ _ hk => hk) rfl (List.Subset.refl _) rfl rfl rfl

theorem applyOp_src (hq : Quiet c) (op : Op) : (applyOp c op).src = c.src := by
  cases op with
  | get key =>
      obtain ⟨new, hok⟩ := engCacheGet_ok hq key
      exact hok.src
  | getMany keys =>
      obtain ⟨new, hok⟩ := engCacheGetMany_ok hq keys
      exact hok.src
  | peek key => rfl
  | pin key pin =>
      show (engCachePin c key pin).1.src = c.src
      unfold engCachePin
      split_ifs
      · cases c.slotOf key <;> rfl
      · rfl
  | resetStats => rfl

/-- **Along every run the bytes of a resident key are its own**, refusals and short reads included. -/
theorem reaches_bytesOk {cfg : EngCacheCfg} {src : EngCacheSrc σ m} {ctx : σ} {arena : Int → UInt8}
    {c₀ : EngCache σ m} (hc : engCacheCreate cfg src ctx arena = some c₀) (hsrc : src.Widens)
    (hr : Reaches step anyChoice c₀ c) : Quiet c ∧ c.src = src ∧ BytesOk c [] := by
  have hstart : c₀.src = src ∧ BytesOk c₀ [] := by
    unfold engCacheCreate at hc
    simp only at hc
    split_ifs at hc
    obtain rfl := Option.some.inj hc
    refine ⟨rfl, fun slot k _ hk => ?_⟩
    cases hk
  refine hr.invariant (P := fun c => Quiet c ∧ c.src = src ∧ BytesOk c [])
    ⟨engCacheCreate_quiet hc, hstart⟩ ?_
  intro s op s' ⟨hq, hs, hb⟩ _ hstep
  obtain rfl := Option.some.inj hstep
  exact ⟨(applyOp_ok hq op).1, (applyOp_src hq op).trans hs, applyOp_bytesOk (hs ▸ hsrc) hq hb op⟩

end LlmEngine.Storage.Cache
