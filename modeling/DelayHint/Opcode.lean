/-! Opcodes of the shader instruction set, with their encoding and performance class. -/
namespace DelayHint

/-- Hardware encoding family of an instruction. -/
inductive Format where
  | pseudo | sop1 | sop2 | sopk | sopc | sopp | smem | ds | mubuf | mtbuf | mimg | exp
  | flat | global | scratch | vop1 | vop2 | vopc | vop3 | vop3p
  deriving DecidableEq, Repr

def Format.name : Format → String
  | .pseudo => "Pseudo"
  | .sop1 => "SOP1"
  | .sop2 => "SOP2"
  | .sopk => "SOPK"
  | .sopc => "SOPC"
  | .sopp => "SOPP"
  | .smem => "SMEM"
  | .ds => "DS"
  | .mubuf => "MUBUF"
  | .mtbuf => "MTBUF"
  | .mimg => "MIMG"
  | .exp => "EXP"
  | .flat => "FLAT"
  | .global => "GLOBAL"
  | .scratch => "SCRATCH"
  | .vop1 => "VOP1"
  | .vop2 => "VOP2"
  | .vopc => "VOPC"
  | .vop3 => "VOP3"
  | .vop3p => "VOP3P"

def Format.isValu : Format → Bool
  | .vop1 | .vop2 | .vopc | .vop3 | .vop3p => true
  | _ => false

/-- The encodings of scalar ALU instructions. Program control shares one of them. -/
def Format.isSalu : Format → Bool
  | .sop1 | .sop2 | .sopk | .sopc | .sopp => true
  | _ => false

def Format.isFlatLike : Format → Bool
  | .flat | .global | .scratch => true
  | _ => false

def Format.isMemory : Format → Bool
  | .ds | .mubuf | .mtbuf | .mimg | .flat | .global | .scratch => true
  | _ => false

/-- Performance class, which decides the cycle cost. -/
inductive PipeClass where
  | valu32 | valuConvert32 | valuQuarterRate32 | valu64 | valuTranscendental32
  | valuDoubleTranscendental | wmma | salu | smem | branch | sendmsg | waitcnt | ds | exp | vmem
  | other
  deriving DecidableEq, Repr

def PipeClass.name : PipeClass → String
  | .valu32 => "Valu32"
  | .valuConvert32 => "ValuConvert32"
  | .valuQuarterRate32 => "ValuQuarterRate32"
  | .valu64 => "Valu64"
  | .valuTranscendental32 => "ValuTranscendental32"
  | .valuDoubleTranscendental => "ValuDoubleTranscendental"
  | .wmma => "Wmma"
  | .salu => "Salu"
  | .smem => "Smem"
  | .branch => "Branch"
  | .sendmsg => "Sendmsg"
  | .waitcnt => "Waitcnt"
  | .ds => "DS"
  | .exp => "Exp"
  | .vmem => "Vmem"
  | .other => "Other"

/-- The classes whose results come from the transcendental unit. -/
def PipeClass.isTrans : PipeClass → Bool
  | .valuTranscendental32 | .valuDoubleTranscendental => true
  | _ => false

inductive Opcode where
  | pParallelcopy | pLogicalStart | pLogicalEnd
  | sMovB32 | sMovB64 | sNotB32 | sAddU32 | sSubU32 | sAndB32 | sOrB64 | sLshlB32 | sMulI32
  | sCselectB32 | sCmpEqU32 | sCmpLgU32 | sMovkI32
  | sNop | sDelayAlu | sWaitcnt | sBranch | sCbranchScc0 | sCbranchExecz | sSendmsg | sEndpgm
  | sLoadDword | sLoadDwordx4
  | vMovB32 | vCvtF32U32 | vReadfirstlaneB32 | vRcpF32 | vRsqF32 | vSqrtF32 | vLogF32 | vExpF32
  | vSinF32 | vCosF32 | vRcpF64
  | vAddF32 | vSubF32 | vMulF32 | vFmacF32 | vCndmaskB32 | vCmpLtF32
  | vFmaF32 | vMadU32U24 | vMulLoU32 | vAddF64 | vMulF64 | vFmaF64 | vPkFmaF16 | vWmmaF32F16
  | dsReadB32 | dsWriteB32 | bufferLoadDword | bufferStoreDword | tbufferLoadFormatX
  | imageSample | imageLoad | exp | flatLoadDword | globalLoadDword | globalStoreDword
  | scratchLoadDword
  deriving DecidableEq, Repr

/-- What the instruction set fixes for an opcode. -/
structure OpcodeSpec where
  name : String
  format : Format
  pipe : PipeClass

def Opcode.spec : Opcode → OpcodeSpec
  | .pParallelcopy => ⟨"p_parallelcopy", .pseudo, .other⟩
  | .pLogicalStart => ⟨"p_logical_start", .pseudo, .other⟩
  | .pLogicalEnd => ⟨"p_logical_end", .pseudo, .other⟩
  | .sMovB32 => ⟨"s_mov_b32", .sop1, .salu⟩
  | .sMovB64 => ⟨"s_mov_b64", .sop1, .salu⟩
  | .sNotB32 => ⟨"s_not_b32", .sop1, .salu⟩
  | .sAddU32 => ⟨"s_add_u32", .sop2, .salu⟩
  | .sSubU32 => ⟨"s_sub_u32", .sop2, .salu⟩
  | .sAndB32 => ⟨"s_and_b32", .sop2, .salu⟩
  | .sOrB64 => ⟨"s_or_b64", .sop2, .salu⟩
  | .sLshlB32 => ⟨"s_lshl_b32", .sop2, .salu⟩
  | .sMulI32 => ⟨"s_mul_i32", .sop2, .salu⟩
  | .sCselectB32 => ⟨"s_cselect_b32", .sop2, .salu⟩
  | .sCmpEqU32 => ⟨"s_cmp_eq_u32", .sopc, .salu⟩
  | .sCmpLgU32 => ⟨"s_cmp_lg_u32", .sopc, .salu⟩
  | .sMovkI32 => ⟨"s_movk_i32", .sopk, .salu⟩
  | .sNop => ⟨"s_nop", .sopp, .waitcnt⟩
  | .sDelayAlu => ⟨"s_delay_alu", .sopp, .waitcnt⟩
  | .sWaitcnt => ⟨"s_waitcnt", .sopp, .waitcnt⟩
  | .sBranch => ⟨"s_branch", .sopp, .branch⟩
  | .sCbranchScc0 => ⟨"s_cbranch_scc0", .sopp, .branch⟩
  | .sCbranchExecz => ⟨"s_cbranch_execz", .sopp, .branch⟩
  | .sSendmsg => ⟨"s_sendmsg", .sopp, .sendmsg⟩
  | .sEndpgm => ⟨"s_endpgm", .sopp, .other⟩
  | .sLoadDword => ⟨"s_load_dword", .smem, .smem⟩
  | .sLoadDwordx4 => ⟨"s_load_dwordx4", .smem, .smem⟩
  | .vMovB32 => ⟨"v_mov_b32", .vop1, .valu32⟩
  | .vCvtF32U32 => ⟨"v_cvt_f32_u32", .vop1, .valuConvert32⟩
  | .vReadfirstlaneB32 => ⟨"v_readfirstlane_b32", .vop1, .valu32⟩
  | .vRcpF32 => ⟨"v_rcp_f32", .vop1, .valuTranscendental32⟩
  | .vRsqF32 => ⟨"v_rsq_f32", .vop1, .valuTranscendental32⟩
  | .vSqrtF32 => ⟨"v_sqrt_f32", .vop1, .valuTranscendental32⟩
  | .vLogF32 => ⟨"v_log_f32", .vop1, .valuTranscendental32⟩
  | .vExpF32 => ⟨"v_exp_f32", .vop1, .valuTranscendental32⟩
  | .vSinF32 => ⟨"v_sin_f32", .vop1, .valuTranscendental32⟩
  | .vCosF32 => ⟨"v_cos_f32", .vop1, .valuTranscendental32⟩
  | .vRcpF64 => ⟨"v_rcp_f64", .vop1, .valuDoubleTranscendental⟩
  | .vAddF32 => ⟨"v_add_f32", .vop2, .valu32⟩
  | .vSubF32 => ⟨"v_sub_f32", .vop2, .valu32⟩
  | .vMulF32 => ⟨"v_mul_f32", .vop2, .valu32⟩
  | .vFmacF32 => ⟨"v_fmac_f32", .vop2, .valu32⟩
  | .vCndmaskB32 => ⟨"v_cndmask_b32", .vop2, .valu32⟩
  | .vCmpLtF32 => ⟨"v_cmp_lt_f32", .vopc, .valu32⟩
  | .vFmaF32 => ⟨"v_fma_f32", .vop3, .valu32⟩
  | .vMadU32U24 => ⟨"v_mad_u32_u24", .vop3, .valu32⟩
  | .vMulLoU32 => ⟨"v_mul_lo_u32", .vop3, .valuQuarterRate32⟩
  | .vAddF64 => ⟨"v_add_f64", .vop3, .valu64⟩
  | .vMulF64 => ⟨"v_mul_f64", .vop3, .valu64⟩
  | .vFmaF64 => ⟨"v_fma_f64", .vop3, .valu64⟩
  | .vPkFmaF16 => ⟨"v_pk_fma_f16", .vop3p, .valu32⟩
  | .vWmmaF32F16 => ⟨"v_wmma_f32_16x16x16_f16", .vop3p, .wmma⟩
  | .dsReadB32 => ⟨"ds_read_b32", .ds, .ds⟩
  | .dsWriteB32 => ⟨"ds_write_b32", .ds, .ds⟩
  | .bufferLoadDword => ⟨"buffer_load_dword", .mubuf, .vmem⟩
  | .bufferStoreDword => ⟨"buffer_store_dword", .mubuf, .vmem⟩
  | .tbufferLoadFormatX => ⟨"tbuffer_load_format_x", .mtbuf, .vmem⟩
  | .imageSample => ⟨"image_sample", .mimg, .vmem⟩
  | .imageLoad => ⟨"image_load", .mimg, .vmem⟩
  | .exp => ⟨"exp", .exp, .exp⟩
  | .flatLoadDword => ⟨"flat_load_dword", .flat, .vmem⟩
  | .globalLoadDword => ⟨"global_load_dword", .global, .vmem⟩
  | .globalStoreDword => ⟨"global_store_dword", .global, .vmem⟩
  | .scratchLoadDword => ⟨"scratch_load_dword", .scratch, .vmem⟩

namespace Opcode

def name (o : Opcode) : String := o.spec.name

def format (o : Opcode) : Format := o.spec.format

def pipe (o : Opcode) : PipeClass := o.spec.pipe

def all : List Opcode :=
  [.pParallelcopy, .pLogicalStart, .pLogicalEnd,
    .sMovB32, .sMovB64, .sNotB32, .sAddU32, .sSubU32, .sAndB32, .sOrB64, .sLshlB32, .sMulI32,
    .sCselectB32, .sCmpEqU32, .sCmpLgU32, .sMovkI32,
    .sNop, .sDelayAlu, .sWaitcnt, .sBranch, .sCbranchScc0, .sCbranchExecz, .sSendmsg, .sEndpgm,
    .sLoadDword, .sLoadDwordx4,
    .vMovB32, .vCvtF32U32, .vReadfirstlaneB32, .vRcpF32, .vRsqF32, .vSqrtF32, .vLogF32, .vExpF32,
    .vSinF32, .vCosF32, .vRcpF64,
    .vAddF32, .vSubF32, .vMulF32, .vFmacF32, .vCndmaskB32, .vCmpLtF32,
    .vFmaF32, .vMadU32U24, .vMulLoU32, .vAddF64, .vMulF64, .vFmaF64, .vPkFmaF16, .vWmmaF32F16,
    .dsReadB32, .dsWriteB32, .bufferLoadDword, .bufferStoreDword, .tbufferLoadFormatX,
    .imageSample, .imageLoad, .exp, .flatLoadDword, .globalLoadDword, .globalStoreDword,
    .scratchLoadDword]

def ofName? (s : String) : Option Opcode := all.find? (·.name == s)

theorem mem_all (o : Opcode) : o ∈ all := by cases o <;> decide

end Opcode

end DelayHint
