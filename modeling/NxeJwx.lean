import NxeJwx.RsaBounds
import NxeJwx.IngestAgree
import NxeJwx.IssueVerify
import NxeJwx.Detached
import NxeJwx.TokenGrammar
import NxeJwx.KeyOrder
import NxeJwx.HardErrors
import NxeJwx.Padding
import NxeJwx.Representation
import NxeJwx.Scrubbed
import NxeJwx.EncodeOut
import NxeJwx.EcdsaCodec
import NxeJwx.Base64Bounds
import NxeJwx.PoolAnswers
import NxeJwx.Base64Spelling
import NxeJwx.Rotation
import NxeJwx.FailClosed
import NxeJwx.DocumentPolicy
