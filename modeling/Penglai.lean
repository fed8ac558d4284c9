import Penglai.Cmdline.PathBounds
import Penglai.Driver.Attestation
import Penglai.Driver.Css
import Penglai.Driver.Interleaving
import Penglai.Gm.CurveContext
import Penglai.Gm.OcbDecryption
import Penglai.Gm.OcbNonce
import Penglai.Gm.OcbTable
import Penglai.Gm.ReadRand
import Penglai.Gm.SeedHistory
import Penglai.Gm.Sm2Keys
import Penglai.Gm.Sm2Verification
import Penglai.Gm.Sm3Standard
import Penglai.Gm.Sm4Cbc
import Penglai.Gm.Sm4CbcAmbiguity
import Penglai.Gm.Sm4InPlace
import Penglai.Host.HexArguments
import Penglai.Lib.Reporting
import Penglai.Miracl.Conversion
import Penglai.Miracl.Division
import Penglai.Miracl.Multiplication
import Penglai.Miracl.Preparation
import Penglai.Remote.Authentication
import Penglai.SignTool.Certification
import Penglai.SignTool.FileMapping
import Penglai.SignTool.KeyParsing
import Penglai.SignTool.Measure
import Penglai.SignTool.Nonce
import Penglai.SignTool.Padding
